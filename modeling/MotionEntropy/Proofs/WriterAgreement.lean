import MotionEntropy.Trace
import MotionEntropy.Proofs.LedgerRoom

namespace MotionEntropy

namespace Pool

def record (pool : Pool) (c : Choice) : Except Fault Record := do
  let t ← Checked.item pool c.table
  let cost ← t.2.symbolCost c.symbol
  return ⟨c.symbol, t.1, cost⟩

def adapt (adapts : Bool) (pool : Pool) (c : Choice) : Except Fault Pool := do
  let t ← Checked.item pool c.table
  let next ← (if adapts then t.2.adapt c.symbol else .ok t.2 : Except Fault (Cdf t.1))
  return pool.set c.table ⟨t.1, next⟩

/-- What a run of writes records up to the first fault, and the pool that it leaves. A symbol is
priced before its table adapts, so that it is recorded even where the table cannot adapt. -/
def run (adapts : Bool) : Pool → List Choice → List Record × Except Fault Pool
  | pool, [] => ([], .ok pool)
  | pool, c :: cs =>
    match pool.record c with
    | .error e => ([], .error e)
    | .ok r =>
      match pool.adapt adapts c with
      | .error e => ([r], .error e)
      | .ok next => (r :: (run adapts next cs).1, (run adapts next cs).2)

variable {adapts : Bool} {pool next last : Pool} {c : Choice} {cs : List Choice} {r : Record}
  {e : Fault} {v w : Writer}

theorem write_eq_bind : pool.write w c = do
    let r ← pool.record c
    let ledger ← w.ledger.enter r
    let next ← pool.adapt w.adapts c
    return (⟨w.adapts, ledger⟩, next) := by
  rw [write, record, adapt]
  cases Checked.item pool c.table with
  | error e => rfl
  | ok t =>
    simp only [ok_bind, Writer.write_eq_bind]
    cases t.2.symbolCost c.symbol with
    | error e => rfl
    | ok cost =>
      simp only [ok_bind, pure_eq_ok]
      cases w.ledger.enter ⟨c.symbol, t.1, cost⟩ with
      | error e => rfl
      | ok ledger =>
        simp only [ok_bind]
        cases (if w.adapts then t.2.adapt c.symbol else .ok t.2 : Except Fault (Cdf t.1)) <;> rfl

theorem write_of_record_error (h : pool.record c = .error e) : pool.write w c = .error e := by
  rw [write_eq_bind, h]
  rfl

theorem write_of_fits (h : pool.record c = .ok r) (hw : w.ledger.Fits [r]) :
    pool.write w c = (pool.adapt w.adapts c).map fun next => (w.after [r], next) := by
  rw [write_eq_bind, h, ok_bind, Ledger.enter_of_fits hw, ok_bind]
  cases pool.adapt w.adapts c <;> rfl

theorem run_of_record_error (h : pool.record c = .error e) :
    pool.run adapts (c :: cs) = ([], .error e) := by
  rw [run, h]

theorem run_of_adapt_error (h : pool.record c = .ok r) (ha : pool.adapt adapts c = .error e) :
    pool.run adapts (c :: cs) = ([r], .error e) := by
  rw [run, h]
  simp only [ha]

theorem run_of_ok (h : pool.record c = .ok r) (ha : pool.adapt adapts c = .ok next) :
    pool.run adapts (c :: cs) = (r :: (next.run adapts cs).1, (next.run adapts cs).2) := by
  rw [run, h]
  simp only [ha]

theorem run_cons_eq_ok (h : (pool.run adapts (c :: cs)).2 = .ok last) : ∃ r next,
    pool.record c = .ok r ∧ pool.adapt adapts c = .ok next ∧ (next.run adapts cs).2 = .ok last := by
  cases hr : pool.record c with
  | error e =>
    rw [run_of_record_error hr] at h
    cases h
  | ok r =>
    cases ha : pool.adapt adapts c with
    | error e =>
      rw [run_of_adapt_error hr ha] at h
      cases h
    | ok next =>
      rw [run_of_ok hr ha] at h
      exact ⟨r, next, rfl, rfl, h⟩

theorem write_cases (adapts : Bool) (pool : Pool) (c : Choice) (cs : List Choice) :
    (∃ e, (pool.run adapts (c :: cs)).2 = .error e ∧ ∀ w : Writer, w.adapts = adapts →
      w.ledger.Fits (pool.run adapts (c :: cs)).1 → pool.write w c = .error e) ∨
    ∃ r next, pool.run adapts (c :: cs) = (r :: (next.run adapts cs).1, (next.run adapts cs).2) ∧
      ∀ w : Writer, w.adapts = adapts → w.ledger.Fits (pool.run adapts (c :: cs)).1 →
        pool.write w c = .ok (w.after [r], next) ∧
          (w.after [r]).ledger.Fits (next.run adapts cs).1 := by
  cases hr : pool.record c with
  | error e =>
    left
    refine ⟨e, congrArg Prod.snd (run_of_record_error hr), ?_⟩
    intro w _ _
    exact write_of_record_error hr
  | ok r =>
    cases ha : pool.adapt adapts c with
    | error e =>
      have hrun : pool.run adapts (c :: cs) = _ := run_of_adapt_error hr ha
      left
      refine ⟨e, congrArg Prod.snd hrun, ?_⟩
      rintro w rfl hw
      rw [hrun] at hw
      rw [write_of_fits hr hw, ha]
      rfl
    | ok next =>
      have hrun : pool.run adapts (c :: cs) = _ := run_of_ok hr ha
      right
      refine ⟨r, next, hrun, ?_⟩
      rintro w rfl hw
      rw [hrun] at hw
      obtain ⟨hfirst, hrest⟩ := Ledger.fits_append.mp (show w.ledger.Fits ([r] ++ _) from hw)
      rw [write_of_fits hr hfirst, ha]
      exact ⟨rfl, hrest⟩

theorem writeAll_eq (adapts : Bool) (ha : w.adapts = adapts)
    (hw : w.ledger.Fits (pool.run adapts cs).1) : pool.writeAll w cs =
      (pool.run adapts cs).2.map fun last => (w.after (pool.run adapts cs).1, last) := by
  induction cs generalizing w pool with
  | nil =>
    simp only [run, Except.map, Writer.after_nil]
    rfl
  | cons c cs ih =>
    rw [writeAll, List.foldlM_cons]
    obtain ⟨e, he, hwrite⟩ | ⟨r, next, hrun, hwrite⟩ := write_cases adapts pool c cs
    · rw [hwrite w ha hw, he]
      rfl
    · obtain ⟨hfirst, hrest⟩ := hwrite w ha hw
      have hentered : w.after (r :: (next.run adapts cs).1) =
          (w.after [r]).after (next.run adapts cs).1 := Writer.after_cons
      rw [hfirst, ok_bind, hrun, hentered]
      exact ih ha hrest

theorem length_run (h : (pool.run adapts cs).2 = .ok last) :
    (pool.run adapts cs).1.length = cs.length := by
  induction cs generalizing pool with
  | nil => rfl
  | cons c cs ih =>
    obtain ⟨r, next, hr, ha, hlast⟩ := run_cons_eq_ok h
    rw [run_of_ok hr ha, List.length_cons, List.length_cons, ih hlast]

theorem record_run (h : (pool.run adapts cs).2 = .ok last) {i : ℕ} (hi : i < cs.length) :
    ∃ before r, (pool.run adapts (cs.take i)).2 = .ok before ∧ before.record cs[i] = .ok r ∧
      (pool.run adapts cs).1[i]? = some r := by
  induction cs generalizing pool i with
  | nil => exact absurd hi (Nat.not_lt_zero i)
  | cons c cs ih =>
    obtain ⟨r, next, hr, ha, hlast⟩ := run_cons_eq_ok h
    rw [run_of_ok hr ha]
    cases i with
    | zero => exact ⟨pool, r, rfl, hr, rfl⟩
    | succ i =>
      obtain ⟨before, r', hbefore, hr', hget⟩ := ih hlast (Nat.lt_of_succ_lt_succ hi)
      refine ⟨before, r', ?_, hr', hget⟩
      rw [List.take_succ_cons, run_of_ok hr ha]
      exact hbefore

theorem adapt_frozen (h : pool.adapt false c = .ok next) : next = pool := by
  obtain ⟨t, ht, h⟩ := bind_eq_ok.mp h
  rw [Checked.item] at ht
  split at ht
  · next hlt =>
    cases ht
    cases h
    exact List.set_getElem_self hlt
  · cases ht

theorem run_frozen (h : (pool.run false cs).2 = .ok last) : last = pool := by
  induction cs generalizing pool with
  | nil =>
    cases h
    rfl
  | cons c cs ih =>
    obtain ⟨r, next, -, ha, hlast⟩ := run_cons_eq_ok h
    rw [ih hlast, adapt_frozen ha]

end Pool

namespace Writer

structure Alike (v w : Writer) : Prop where
  adapts_eq : v.adapts = w.adapts
  total_eq : v.ledger.total = w.ledger.total
  count_eq : v.ledger.count = w.ledger.count

variable {v w : Writer} {rs : List Record} {pool : Pool} {k : ℕ}

theorem alike_counter_recorder (adapts : Bool) : (counter adapts).Alike (recorder adapts) :=
  ⟨rfl, rfl, rfl⟩

theorem Alike.after (h : v.Alike w) (rs : List Record) : (v.after rs).Alike (w.after rs) where
  adapts_eq := h.adapts_eq
  total_eq := by
    rw [Writer.after, Writer.after, Ledger.total_extend, Ledger.total_extend, h.total_eq]
  count_eq := by
    rw [Writer.after, Writer.after, Ledger.count_extend, Ledger.count_extend, h.count_eq]

theorem Alike.report_eq (h : v.Alike w) : Pool.report v pool = Pool.report w pool := by
  simp only [Pool.report, roundedTotal, cost, h.total_eq, h.count_eq]

theorem cost_eq (h : w.ledger.total = k) (hk : k < 18446744073709551616) : w.cost = .ok k := by
  rw [cost, h]
  exact if_pos hk

theorem roundedTotal_eq (h : w.ledger.total = k) (hk : k + 32 < 18446744073709551616) :
    w.roundedTotal = .ok ((k + 32) >>> 6 % 4294967296) := by
  have hsum : Checked.word64 .add (k + 32) = .ok (k + 32) := if_pos hk
  rw [roundedTotal, cost_eq h (by omega), ok_bind]
  show Checked.word64 .add (k + 32) >>= _ = _
  rw [hsum]
  rfl

end Writer

namespace Pool

variable {adapts : Bool} {pool : Pool} {c : Choice} {cs : List Choice} {v w : Writer}

theorem trace_congr (h : v.Alike w) (ha : v.adapts = adapts)
    (hv : v.ledger.Fits (pool.run adapts cs).1) (hw : w.ledger.Fits (pool.run adapts cs).1) :
    trace step (v, pool) cs = trace step (w, pool) cs := by
  induction cs generalizing v w pool with
  | nil => rfl
  | cons c cs ih =>
    have ha' : w.adapts = adapts := h.adapts_eq.symm.trans ha
    simp only [trace, step]
    obtain ⟨e, -, hwrite⟩ | ⟨r, next, -, hwrite⟩ := write_cases adapts pool c cs
    · rw [hwrite v ha hv, hwrite w ha' hw]
    · obtain ⟨hvfirst, hvrest⟩ := hwrite v ha hv
      obtain ⟨hwfirst, hwrest⟩ := hwrite w ha' hw
      have hafter := h.after [r]
      simp only [hvfirst, hwfirst, ok_bind, pure_eq_ok, hafter.report_eq]
      rw [ih hafter ha hvrest hwrest]

theorem write_frozen {next : Pool} (ha : v.adapts = false) (h : pool.write v c = .ok (w, next)) :
    w.adapts = false ∧ next = pool := by
  rw [write_eq_bind, ha] at h
  obtain ⟨r, -, h⟩ := bind_eq_ok.mp h
  obtain ⟨ledger, -, h⟩ := bind_eq_ok.mp h
  obtain ⟨next, hnext, h⟩ := bind_eq_ok.mp h
  cases h
  exact ⟨rfl, adapt_frozen hnext⟩

theorem trace_frozen {r : Report} (ha : w.adapts = false) (h : .ok r ∈ trace step (w, pool) cs) :
    r.pool = pool := by
  induction cs generalizing w with
  | nil => cases h
  | cons c cs ih =>
    simp only [trace, step] at h
    cases hwrite : pool.write w c with
    | error e =>
      rw [hwrite] at h
      cases List.mem_singleton.mp h
    | ok s =>
      obtain ⟨ha', hpool⟩ := write_frozen ha hwrite
      simp only [hwrite, ok_bind, pure_eq_ok] at h
      obtain h | h := List.mem_cons.mp h
      · cases h
        exact hpool
      · obtain ⟨w', next⟩ := s
        subst hpool
        exact ih ha' h

theorem cost_record_le {r : Record} (h : pool.record c = .ok r) : r.cost ≤ Logarithm.maxCost := by
  obtain ⟨t, -, h⟩ := bind_eq_ok.mp h
  obtain ⟨cost, hcost, h⟩ := bind_eq_ok.mp h
  cases h
  rw [← Cdf.price_of_eq_ok hcost]
  exact t.2.price_le c.symbol

theorem cost_run_le (adapts : Bool) (pool : Pool) (cs : List Choice) :
    (pool.run adapts cs).1.length ≤ cs.length ∧
      ((pool.run adapts cs).1.map Record.cost).sum ≤ cs.length * Logarithm.maxCost := by
  induction cs generalizing pool with
  | nil => exact ⟨le_rfl, le_rfl⟩
  | cons c cs ih =>
    rw [List.length_cons, Nat.succ_mul]
    cases hr : pool.record c with
    | error e =>
      rw [run_of_record_error hr]
      exact ⟨Nat.zero_le _, Nat.zero_le _⟩
    | ok r =>
      have hr' := cost_record_le hr
      cases ha : pool.adapt adapts c with
      | error e =>
        rw [run_of_adapt_error hr ha]
        exact ⟨Nat.le_add_left _ _, hr'.trans (Nat.le_add_left _ _)⟩
      | ok next =>
        obtain ⟨hlength, hcost⟩ := ih next
        rw [run_of_ok hr ha, List.length_cons, List.map_cons, List.sum_cons]
        constructor <;> omega

theorem fits_run (h : cs.length < 2 ^ 51) : (Ledger.tally 0 0).Fits (pool.run adapts cs).1 := by
  obtain ⟨hlength, hcost⟩ := cost_run_le adapts pool cs
  have hcost' : ((pool.run adapts cs).1.map Record.cost).sum ≤ cs.length * 7680 := hcost
  constructor <;> omega

theorem writeAll_counter (h : (Ledger.tally 0 0).Fits (pool.run adapts cs).1) :
    pool.writeAll (.counter adapts) cs = (pool.run adapts cs).2.map fun last =>
      ((Writer.counter adapts).after (pool.run adapts cs).1, last) :=
  writeAll_eq adapts rfl h

theorem writeAll_recorder : pool.writeAll (.recorder adapts) cs =
    (pool.run adapts cs).2.map fun last =>
      ((Writer.recorder adapts).after (pool.run adapts cs).1, last) :=
  writeAll_eq adapts rfl trivial

structure EndsAlike (adapts : Bool) (pool : Pool) (cs : List Choice) (last : Pool) (v w : Writer)
    (rs : List Record) : Prop where
  counter : pool.writeAll (.counter adapts) cs = .ok (v, last)
  recorder : pool.writeAll (.recorder adapts) cs = .ok (w, last)
  count : v.ledger.count = cs.length
  journal : w.ledger = .journal rs
  length : rs.length = cs.length
  priced_before : ∀ i, (hi : i < cs.length) → ∃ u before r,
    pool.writeAll (.recorder adapts) (cs.take i) = .ok (u, before) ∧
      before.record cs[i] = .ok r ∧ rs[i]? = some r
  counter_cost : v.cost = .ok (rs.map Record.cost).sum
  recorder_cost : w.cost = .ok (rs.map Record.cost).sum
  rounded : (rs.map Record.cost).sum + 32 < 2 ^ 64 →
    v.roundedTotal = .ok (((rs.map Record.cost).sum + 32) >>> 6 % 2 ^ 32) ∧
      w.roundedTotal = .ok (((rs.map Record.cost).sum + 32) >>> 6 % 2 ^ 32)
  frozen : adapts = false → last = pool

theorem endsAlike_of_run (h : (Ledger.tally 0 0).Fits (pool.run adapts cs).1) {last : Pool}
    (hlast : (pool.run adapts cs).2 = .ok last) :
    EndsAlike adapts pool cs last ((Writer.counter adapts).after (pool.run adapts cs).1)
      ((Writer.recorder adapts).after (pool.run adapts cs).1) (pool.run adapts cs).1 := by
  have hlength := length_run hlast
  have htotal (w : Writer) (hw : w.ledger.total = 0) :
      (w.after (pool.run adapts cs).1).ledger.total =
        ((pool.run adapts cs).1.map Record.cost).sum := by
    rw [Writer.after, Ledger.total_extend, hw, Nat.zero_add]
  have hv := htotal (.counter adapts) rfl
  have hw := htotal (.recorder adapts) rfl
  have hfits := h.1
  rw [Nat.zero_add] at hfits
  refine ⟨?_, ?_, ?_, rfl, hlength, ?_, Writer.cost_eq hv hfits, Writer.cost_eq hw hfits, ?_, ?_⟩
  · rw [writeAll_counter h, hlast]
    rfl
  · rw [writeAll_recorder, hlast]
    rfl
  · rw [Writer.after, Ledger.count_extend, hlength]
    exact Nat.zero_add _
  · intro i hi
    obtain ⟨before, r, hbefore, hr, hget⟩ := record_run hlast hi
    have hprefix : pool.writeAll (.recorder adapts) (cs.take i) = _ := writeAll_recorder
    rw [hbefore] at hprefix
    exact ⟨_, before, r, hprefix, hr, hget⟩
  · intro hround
    exact ⟨Writer.roundedTotal_eq hv hround, Writer.roundedTotal_eq hw hround⟩
  · rintro rfl
    exact run_frozen hlast

/-- A counter and a recorder can take each other's place: they meet the same fault at the same
write, or show the same and leave the same tables, which are those of the start if neither adapts. -/
theorem counter_and_recorder_agree (adapts : Bool) (pool : Pool) (cs : List Choice)
    (h : (Ledger.tally 0 0).Fits (pool.run adapts cs).1) :
    trace step (.counter adapts, pool) cs = trace step (.recorder adapts, pool) cs ∧
    ((∃ e, pool.writeAll (.counter adapts) cs = .error e ∧
        pool.writeAll (.recorder adapts) cs = .error e) ∨
      ∃ last v w rs, EndsAlike adapts pool cs last v w rs) ∧
    (adapts = false → ∀ r, .ok r ∈ trace step (.recorder adapts, pool) cs → r.pool = pool) := by
  refine ⟨trace_congr (Writer.alike_counter_recorder adapts) rfl h trivial, ?_, ?_⟩
  · cases hrun : (pool.run adapts cs).2 with
    | error e =>
      left
      refine ⟨e, ?_⟩
      rw [writeAll_counter h, writeAll_recorder, hrun]
      exact ⟨rfl, rfl⟩
    | ok last => exact .inr ⟨last, _, _, _, endsAlike_of_run h hrun⟩
  · intro ha r hr
    exact trace_frozen ha hr

/-- The second table is marked as adapted more often than tables are, so it cannot adapt. -/
def wornPool : Pool := [⟨2, .ofFrequencies #v[16384]⟩, ⟨2, ⟨#v[100, 64]⟩⟩]

def wornChoices : List Choice := [⟨0, 1⟩, ⟨0, 0⟩, ⟨1, 0⟩]

theorem counter_and_recorder_agree_worn :
    (trace step (.counter true, wornPool) wornChoices =
        trace step (.recorder true, wornPool) wornChoices ∧
      ∃ e, wornPool.writeAll (.counter true) wornChoices = .error e ∧
        wornPool.writeAll (.recorder true) wornChoices = .error e) ∧
    ∃ last v w rs, EndsAlike false wornPool wornChoices last v w rs := by
  have hfew : wornChoices.length < 2 ^ 51 := by decide
  have hfault : (wornPool.writeAll (.counter true) wornChoices).isOk = false := by decide +kernel
  have hdone : (wornPool.writeAll (.counter false) wornChoices).isOk = true := by decide +kernel
  obtain ⟨htrace, hadapting, -⟩ :=
    counter_and_recorder_agree true wornPool wornChoices (fits_run hfew)
  obtain ⟨-, hfrozen, -⟩ := counter_and_recorder_agree false wornPool wornChoices (fits_run hfew)
  refine ⟨⟨htrace, hadapting.resolve_right ?_⟩, hfrozen.resolve_left ?_⟩
  · rintro ⟨last, v, w, rs, hends⟩
    rw [hends.counter] at hfault
    cases hfault
  · rintro ⟨e, he, -⟩
    rw [he] at hdone
    cases hdone

end Pool

end MotionEntropy
