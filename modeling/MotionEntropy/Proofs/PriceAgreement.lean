import MotionEntropy.Proofs.ModelPreservation

namespace MotionEntropy

theorem Writer.cost_after {w : Writer} {k : ℕ} {rs : List Record} (hk : w.cost = .ok k)
    (h : k + (rs.map Record.cost).sum < 18446744073709551616) :
    (w.after rs).cost = .ok (k + (rs.map Record.cost).sum) := by
  have htotal : w.ledger.total = k := by
    rw [cost, Checked.word64] at hk
    split at hk
    · cases hk
      rfl
    · cases hk
  rw [cost, after, Ledger.total_extend, htotal]
  exact if_pos h

namespace Call

def Accepted (c : Call) : Prop := c.Admissible ∧ ∀ a, InRange (c.gap a)

def runRecords (t : TileModel) : List Call → List Record
  | [] => []
  | c :: calls => c.records t ++ runRecords (c.adapted t) calls

def quoteAndWrite (s : ℕ × Writer × TileModel) (c : Call) :
    Except Fault (ℕ × Writer × TileModel) := do
  let price ← c.quote s.2.2
  let (w, t) ← c.write s.2.1 s.2.2
  return (s.1 + price, w, t)

def writeAll (w : Writer) (t : TileModel) (calls : List Call) : Except Fault (Writer × TileModel) :=
  calls.foldlM (fun s c => c.write s.1 s.2) (w, t)

variable {c c' : Call} {calls : List Call} {t : TileModel} {w : Writer} {k : ℕ}

theorem model_adapted {P : {n : ℕ} → Cdf n → Prop} (hP : ∀ {n} (c : Cdf n) s, P c → P (c.moved s))
    (h : (c'.model t).All P) : (c'.model (c.adapted t)).All P := by
  unfold adapted
  split
  · cases c with
    | motion p mv ref =>
      cases c' with
      | motion p' mv' ref' => exact h.adapted hP
      | blockCopy dv' ref' => exact h
    | blockCopy dv ref =>
      cases c' with
      | motion p' mv' ref' => exact h
      | blockCopy dv' ref' => exact h.adapted hP
  · exact h

theorem models_adapted (ht : ∀ c' ∈ calls, (c'.model t).All Cdf.Valid) :
    ∀ c' ∈ calls, (c'.model (c.adapted t)).All Cdf.Valid := by
  intro c' hc'
  apply model_adapted
  · intro n c s h
    exact h.moved s
  · exact ht c' hc'

theorem quoteAndWrite_eq (ht : (c.model t).All Cdf.Valid) (hc : c.Admissible) (hr : c.InReach)
    (ha : w.adapts = true) (hw : w.ledger.Fits (c.records t)) :
    quoteAndWrite (k, w, t) c =
      .ok (k + ((c.records t).map Record.cost).sum, w.after (c.records t), c.adapted t) := by
  have hwrite := write_eq ht hc (inRange_of_inReach hr) hw
  rw [if_pos ha] at hwrite
  rw [quoteAndWrite, quote_eq ht hc hr, ok_bind, hwrite]
  rfl

theorem writeAll_eq (ht : ∀ c ∈ calls, (c.model t).All Cdf.Valid) (hc : ∀ c ∈ calls, c.Accepted)
    (ha : w.adapts = true) (hw : w.ledger.Fits (runRecords t calls)) :
    writeAll w t calls = .ok (w.after (runRecords t calls), calls.foldl adapted t) := by
  induction calls generalizing w t with
  | nil =>
    rw [runRecords, Writer.after_nil]
    rfl
  | cons c calls ih =>
    obtain ⟨hadmissible, hrange⟩ := hc c (.head _)
    obtain ⟨hfirst, hrest⟩ := Ledger.fits_append.mp hw
    have hwrite := write_eq (ht c (.head _)) hadmissible hrange hfirst
    rw [if_pos ha] at hwrite
    rw [writeAll, List.foldlM_cons, hwrite, ok_bind, runRecords, ← Writer.after_after]
    exact ih (models_adapted fun c' hc' => ht c' (.tail _ hc')) (fun c' hc' => hc c' (.tail _ hc'))
      ha hrest

theorem run_eq (ht : ∀ c ∈ calls, (c.model t).All Cdf.Valid)
    (hc : ∀ c ∈ calls, c.Admissible ∧ c.InReach) (ha : w.adapts = true)
    (hw : w.ledger.Fits (runRecords t calls)) :
    calls.foldlM quoteAndWrite (k, w, t) =
        .ok (k + ((runRecords t calls).map Record.cost).sum, w.after (runRecords t calls),
          calls.foldl adapted t) ∧
      writeAll w t calls = .ok (w.after (runRecords t calls), calls.foldl adapted t) := by
  have haccepted : ∀ c ∈ calls, c.Accepted := by
    intro c hmem
    exact ⟨(hc c hmem).1, inRange_of_inReach (hc c hmem).2⟩
  refine ⟨?_, writeAll_eq ht haccepted ha hw⟩
  clear haccepted
  induction calls generalizing k w t with
  | nil =>
    rw [runRecords, Writer.after_nil]
    rfl
  | cons c calls ih =>
    obtain ⟨hadm, hreach⟩ := hc c (.head _)
    obtain ⟨hfirst, hrest⟩ := Ledger.fits_append.mp hw
    rw [List.foldlM_cons, quoteAndWrite_eq (ht c (.head _)) hadm hreach ha hfirst, ok_bind,
      runRecords, List.map_append, List.sum_append, ← Nat.add_assoc, ← Writer.after_after]
    exact ih (models_adapted fun c' hc' => ht c' (.tail _ hc')) (fun c' hc' => hc c' (.tail _ hc'))
      ha hrest

/-- Prices exist within reach, and writing adds to a total what the tables of the moment say. -/
theorem written_cost_eq_quote :
    (∀ (t : TileModel) (c : Call), (c.model t).All Cdf.Valid →
      ((∃ price, c.quote t = .ok price) ↔ c.InReach)) ∧
    (∀ (t : TileModel) (c : Call) (w : Writer), (c.model t).All Cdf.Valid → c.InReach →
      c.Admissible → w.ledger.Fits (c.records t) →
      ∃ price w', c.quote t = .ok price ∧
        c.write w t = .ok (w', if w.adapts then c.adapted t else t) ∧
        w'.adapts = w.adapts ∧ w'.ledger.total = w.ledger.total + price ∧
        ∀ k, w.cost = .ok k → k + price < 18446744073709551616 → w'.cost = .ok (k + price)) ∧
    ∀ (t : TileModel) (calls : List Call) (w : Writer), (∀ c ∈ calls, (c.model t).All Cdf.Valid) →
      (∀ c ∈ calls, c.Admissible ∧ c.InReach) → w.adapts = true →
      w.ledger.Fits (runRecords t calls) →
      ∃ sum w' t', calls.foldlM quoteAndWrite (0, w, t) = .ok (sum, w', t') ∧
        writeAll w t calls = .ok (w', t') ∧ w'.ledger.total = w.ledger.total + sum ∧
        ∀ k, w.cost = .ok k → k + sum < 18446744073709551616 → w'.cost = .ok (k + sum) := by
  refine ⟨?_, ?_, ?_⟩
  · intro t c ht
    exact quote_isOk_iff ht
  · intro t c w ht hr hc hw
    exact ⟨_, _, quote_eq ht hc hr, write_eq ht hc (inRange_of_inReach hr) hw, rfl,
      Ledger.total_extend, fun k hk h => Writer.cost_after hk h⟩
  · intro t calls w ht hc ha hw
    obtain ⟨hquoted, hwritten⟩ := run_eq (k := 0) ht hc ha hw
    rw [Nat.zero_add] at hquoted
    exact ⟨_, _, _, hquoted, hwritten, Ledger.total_extend, fun k hk h => Writer.cost_after hk h⟩

theorem written_cost_eq_quote_initial :
    (∃ price, (motion .eighthPel ⟨5, -300⟩ ⟨0, 0⟩).quote (.initial .split) = .ok price) ∧
    (∃ price w', (motion .eighthPel ⟨5, -300⟩ ⟨0, 0⟩).quote (.initial .split) = .ok price ∧
      (motion .eighthPel ⟨5, -300⟩ ⟨0, 0⟩).write (.counter false) (.initial .split) =
        .ok (w', .initial .split) ∧ w'.ledger.total = 0 + price) ∧
    ∃ sum w' t', [motion .eighthPel ⟨5, -300⟩ ⟨0, 0⟩, blockCopy ⟨8, 0⟩ ⟨0, 16⟩].foldlM quoteAndWrite
        (0, .counter true, .initial .split) = .ok (sum, w', t') ∧
      w'.ledger.total = 0 + sum := by
  have hvalid : (TileModel.initial .split).All Cdf.Valid := TileModel.initial_fit.valid
  have hmotion : (motion .eighthPel ⟨5, -300⟩ ⟨0, 0⟩).InReach :=
    Axis.forall_iff.mpr ⟨by decide, by decide⟩
  have hcopy : (blockCopy ⟨8, 0⟩ ⟨0, 16⟩).InReach := Axis.forall_iff.mpr ⟨by decide, by decide⟩
  obtain ⟨hprice, hwrite, hrun⟩ := written_cost_eq_quote
  refine ⟨(hprice _ _ (model_all hvalid _)).mpr hmotion, ?_, ?_⟩
  · obtain ⟨price, w', hquote, hwritten, -, htotal, -⟩ :=
      hwrite (.initial .split) (motion .eighthPel ⟨5, -300⟩ ⟨0, 0⟩) (.counter false)
        (model_all hvalid _) hmotion (by decide) (by decide +kernel)
    exact ⟨price, w', hquote, hwritten, htotal⟩
  · obtain ⟨sum, w', t', hquoted, -, htotal, -⟩ := hrun (.initial .split)
      [motion .eighthPel ⟨5, -300⟩ ⟨0, 0⟩, blockCopy ⟨8, 0⟩ ⟨0, 16⟩] (.counter true)
      (fun c _ => model_all hvalid c)
      (List.forall_mem_cons.mpr ⟨⟨by decide, hmotion⟩,
        List.forall_mem_singleton.mpr ⟨by decide, hcopy⟩⟩) rfl (by decide +kernel)
    exact ⟨sum, w', t', hquoted, htotal⟩

end Call

end MotionEntropy
