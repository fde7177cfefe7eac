import MotionEntropy.Session
import MotionEntropy.Proofs.ModelPreservation

namespace MotionEntropy

open Logarithm (maxCost)

theorem item_mem {α : Type} {xs : List α} {i : ℕ} {x : α} (h : Checked.item xs i = .ok x) :
    x ∈ xs := by
  rw [Checked.item] at h
  split at h
  · cases h
    exact List.getElem_mem _
  · cases h

namespace Pass

structure Invariant (layout : Layout) (s : Pass) : Prop where
  tile : s.coder.tile.Fit layout Cdf.Sound
  saved : ∀ t ∈ s.saved, t.Fit layout Cdf.Sound

variable {layout : Layout} {s s' : Pass}

theorem Invariant.writing (hs : s.Invariant layout) {i : ℕ}
    {f : Writer → Coder → Except Fault (Writer × Coder)}
    (hf : ∀ w k w' k', k.tile.Fit layout Cdf.Sound → f w k = .ok (w', k') →
      k'.tile.Fit layout Cdf.Sound)
    (h : s.writing i f = .ok s') : s'.Invariant layout := by
  obtain ⟨w, -, h⟩ := bind_eq_ok.mp h
  obtain ⟨⟨w', k'⟩, hk, h⟩ := bind_eq_ok.mp h
  cases h
  exact ⟨hf _ _ _ _ hs.tile hk, hs.saved⟩

theorem Invariant.perform (hs : s.Invariant layout) {a : Action} (h : s.perform a = .ok s') :
    s'.Invariant layout := by
  have hmoved {n : ℕ} (c : Cdf n) (v : ℕ) : c.Sound → (c.moved v).Sound := fun hc => hc.moved v
  cases a with
  | writeMotion i p mv ref =>
    refine hs.writing (f := fun w k => k.writeMotion w p mv ref) ?_ h
    intro w k w' k' hk h
    obtain ⟨⟨w₁, t⟩, ht, h⟩ := bind_eq_ok.mp h
    cases h
    exact hk.write hmoved (c := .motion p mv ref) ht
  | writeBlockCopy i dv ref =>
    refine hs.writing (f := fun w k => k.writeBlockCopy w dv ref) ?_ h
    intro w k w' k' hk h
    obtain ⟨⟨w₁, t⟩, ht, h⟩ := bind_eq_ok.mp h
    cases h
    exact hk.write hmoved (c := .blockCopy dv ref) ht
  | writeComponent i p axis comp =>
    refine hs.writing (f := fun w k => k.writeComponent w p axis comp) ?_ h
    intro w k w' k' hk h
    obtain ⟨a, -, h⟩ := bind_eq_ok.mp h
    obtain ⟨⟨w₁, m⟩, hm, h⟩ := bind_eq_ok.mp h
    cases h
    exact ⟨hk.motion.writeComponent hmoved hm, hk.blockCopy⟩
  | checkpoint =>
    cases h
    refine ⟨hs.tile, ?_⟩
    intro t ht
    obtain ht | ht := List.mem_append.mp ht
    · exact hs.saved t ht
    · rw [List.mem_singleton.mp ht]
      exact hs.tile
  | rollback mark =>
    obtain ⟨t, ht, h⟩ := bind_eq_ok.mp h
    cases h
    exact ⟨hs.saved t (item_mem ht), hs.saved⟩
  | resetCounts =>
    cases h
    exact ⟨hs.tile.resetCounts fun c hc => hc.resetCount, hs.saved⟩

end Pass

namespace VectorModel

structure Priceable (m : VectorModel) (p : Precision) : Prop where
  joints : ∃ v, m.joints.costs = .ok v ∧ ∀ i : Fin 4, v.get i ≤ maxCost
  component : ∀ a, ∃ c, ComponentPrices.build (m.component a) p = .ok c ∧
    c.tables.All fun v => ∀ i : Fin _, v.get i ≤ maxCost

theorem All.priceable {m : VectorModel} (hm : m.All Cdf.Valid) (p : Precision) :
    m.Priceable p where
  joints := ⟨_, hm.joints.costs_eq, Cdf.prices_le⟩
  component a := ⟨_, ComponentPrices.build_eq (hm.component a),
    Tables.all_mapNamed (fun _ _ _ i => Cdf.pricesAt_le i) _⟩

end VectorModel

namespace Session

structure Invariant (c : Config) (s : Session) : Prop where
  config_eq : s.config = c
  pass : s.pass.Invariant c.layout

variable {c : Config} {s s' : Session}

theorem start_eq_ok {writers : List Writer} :
    start c writers = .ok s ↔ c.validate = .ok () ∧ ofConfig c writers = s := by
  rw [start]
  cases hc : c.validate with
  | error r => exact iff_of_false nofun nofun
  | ok u =>
    constructor
    · intro h
      cases h
      exact ⟨rfl, rfl⟩
    · rintro ⟨-, rfl⟩
      rfl

theorem start_invariant {writers : List Writer} (h : start c writers = .ok s) :
    s.Invariant c := by
  obtain ⟨-, rfl⟩ := start_eq_ok.mp h
  exact ⟨rfl, TileModel.initial_fit, nofun⟩

theorem Invariant.passing (hs : s.Invariant c) {a : Pass.Action} (h : s.passing a = .ok s') :
    s'.Invariant c := by
  obtain ⟨pass, hpass, h⟩ := bind_eq_ok.mp h
  cases h
  exact ⟨hs.config_eq, hs.pass.perform hpass⟩

theorem Invariant.pricing (hs : s.Invariant c) {m : VectorModel} {p : Precision}
    (h : s.pricing m p = .ok s') : s'.Invariant c := by
  obtain ⟨prices, -, h⟩ := bind_eq_ok.mp h
  cases h
  exact ⟨hs.config_eq, hs.pass⟩

theorem Invariant.perform (hs : s.Invariant c) {a : Action} (h : s.perform a = .ok s') :
    s'.Invariant c := by
  cases a with
  | priceMotion => exact hs.pricing h
  | priceBlockCopy => exact hs.pricing h
  | _ => exact hs.passing h

theorem Invariant.run (hs : s.Invariant c) {actions : List Action}
    (h : actions.foldlM Session.perform s = .ok s') : s'.Invariant c :=
  foldlM_invariant (fun _ _ _ hs h => hs.perform h) hs h

theorem pricing_eq {m : VectorModel} (hm : m.All Cdf.Valid) (p : Precision) :
    ∃ s', s.pricing m p = .ok s' := by
  rw [pricing, VectorPrices.build_eq hm]
  exact ⟨_, rfl⟩

/-- Wherever a run ends, all tables are sound, are laid out as configured, and can be priced. -/
theorem run_tables_sound {writers : List Writer} {actions : List Action} {s₀ s : Session}
    (hstart : start c writers = .ok s₀) (hrun : actions.foldlM Session.perform s₀ = .ok s) :
    s.pass.coder.tile.Fit c.layout Cdf.Sound ∧
      (∃ s', s.perform .priceMotion = .ok s') ∧ (∃ s', s.perform .priceBlockCopy = .ok s') ∧
      s.pass.coder.tile.motion.Priceable c.precision ∧
      s.pass.coder.tile.blockCopy.Priceable .fullPel := by
  have hs := (start_invariant hstart).run hrun
  have hvalid := hs.pass.tile.valid
  exact ⟨hs.pass.tile, pricing_eq hvalid.motion _, pricing_eq hvalid.blockCopy _,
    hvalid.motion.priceable _, hvalid.blockCopy.priceable _⟩

theorem run_tables_sound_standard : ∃ s₀ s,
    start .standard [.counter true, .recorder false] = .ok s₀ ∧
    [.writeMotion 0 ⟨37, -300⟩ ⟨-5, 0⟩, .checkpoint, .writeBlockCopy 1 ⟨8, -24⟩ ⟨0, 0⟩,
      .resetCounts, .writeMotion 0 ⟨1, 0⟩ ⟨0, 0⟩, .rollback 0].foldlM Session.perform s₀ = .ok s ∧
    s.pass.coder.tile.Fit .split Cdf.Sound ∧ (∃ s', s.perform .priceMotion = .ok s') ∧
    s.pass.coder.tile.motion.Priceable .eighthPel := by
  obtain ⟨s, hs⟩ := exists_ok_of_isOk (x := [.writeMotion 0 ⟨37, -300⟩ ⟨-5, 0⟩, .checkpoint,
    .writeBlockCopy 1 ⟨8, -24⟩ ⟨0, 0⟩, .resetCounts, .writeMotion 0 ⟨1, 0⟩ ⟨0, 0⟩,
    .rollback 0].foldlM Session.perform (.ofConfig .standard [.counter true, .recorder false]))
    (by decide +kernel)
  obtain ⟨htile, hprices, -, hpriceable, -⟩ := run_tables_sound (c := .standard) rfl hs
  exact ⟨_, s, rfl, hs, htile, hprices, hpriceable⟩

end Session

end MotionEntropy
