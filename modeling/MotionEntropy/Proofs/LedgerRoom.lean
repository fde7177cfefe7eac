import MotionEntropy.Proofs.PriceAgreement
import MotionEntropy.Proofs.WriteAcceptance

namespace MotionEntropy

namespace Ledger

/-- Whether a ledger takes all that another takes; a journal takes everything. -/
def Lighter : Ledger → Ledger → Prop
  | journal _, _ => True
  | tally cost count, tally cost' count' => cost ≤ cost' ∧ count ≤ count'
  | tally _ _, journal _ => False

variable {l l' k k' : Ledger} {r : Record}

theorem Lighter.refl (l : Ledger) : l.Lighter l := by
  cases l with
  | tally cost count => exact ⟨le_refl cost, le_refl count⟩
  | journal records => trivial

theorem Lighter.trans (h : l.Lighter k) (h' : k.Lighter k') : l.Lighter k' := by
  cases l with
  | journal records => trivial
  | tally cost count =>
    cases k with
    | journal records => cases h
    | tally cost' count' =>
      cases k' with
      | journal records => cases h'
      | tally cost'' count'' => exact ⟨h.1.trans h'.1, h.2.trans h'.2⟩

theorem enter_tally {cost count : ℕ} (h : (tally cost count).enter r = .ok l) :
    l = tally (cost + r.cost) (count + 1) ∧ (tally cost count).Fits [r] := by
  obtain ⟨cost', hcost, h⟩ := bind_eq_ok.mp h
  obtain ⟨count', hcount, h⟩ := bind_eq_ok.mp h
  rw [Checked.word64] at hcost hcount
  split_ifs at hcost hcount with hc hn
  cases hcost
  cases hcount
  cases h
  exact ⟨rfl, hc, hn⟩

theorem lighter_of_enter (h : l.enter r = .ok l') : l.Lighter l' := by
  cases l with
  | journal records => trivial
  | tally cost count =>
    obtain ⟨rfl, -⟩ := enter_tally h
    exact ⟨Nat.le_add_right _ _, Nat.le_add_right _ _⟩

theorem Lighter.enter (h : l.Lighter k) (hk : k.enter r = .ok k') :
    ∃ l', l.enter r = .ok l' ∧ l'.Lighter k' := by
  cases l with
  | journal records => exact ⟨_, rfl, trivial⟩
  | tally cost count =>
    cases k with
    | journal records => cases h
    | tally cost' count' =>
      obtain ⟨hcost, hcount⟩ := h
      obtain ⟨rfl, hc, hn⟩ := enter_tally hk
      have hfits : (tally cost count).Fits [r] :=
        ⟨(Nat.add_le_add_right hcost _).trans_lt hc, (Nat.add_le_add_right hcount _).trans_lt hn⟩
      refine ⟨_, enter_of_fits hfits, ?_, ?_⟩
      · exact Nat.add_le_add_right hcost _
      · exact Nat.add_le_add_right hcount _

end Ledger

namespace Writer

structure Lighter (v w : Writer) : Prop where
  adapts_eq : v.adapts = w.adapts
  ledger : v.ledger.Lighter w.ledger

theorem Lighter.refl (w : Writer) : w.Lighter w := ⟨rfl, .refl w.ledger⟩

theorem Lighter.trans {u v w : Writer} (h : u.Lighter v) (h' : v.Lighter w) : u.Lighter w :=
  ⟨h.adapts_eq.trans h'.adapts_eq, h.ledger.trans h'.ledger⟩

def enterAll (w : Writer) (rs : List Record) : Except Fault Writer :=
  rs.foldlM (fun w r => do return { w with ledger := ← w.ledger.enter r }) w

variable {α β : Type} {v w w' : Writer} {r : Record} {rs rs' : List Record}
  {f : Writer → Except Fault (Writer × α)}

/-- Writing that looks at a ledger only to enter records: where it goes through, it goes through
with the same result on every ledger with more room. -/
structure Oblivious (f : Writer → Except Fault (Writer × α)) : Prop where
  grows : ∀ w w' a, f w = .ok (w', a) → w.Lighter w'
  eased : ∀ v w w' a, v.Lighter w → f w = .ok (w', a) → ∃ v', f v = .ok (v', a) ∧ v'.Lighter w'

def Appends (f : Writer → Except Fault (Writer × α)) : Prop :=
  ∀ w w' a, f w = .ok (w', a) → ∃ rs, w.enterAll rs = .ok w' ∧
    ∀ v v', v.adapts = w.adapts → v.enterAll rs = .ok v' → f v = .ok (v', a)

theorem enterAll_cons : w.enterAll (r :: rs) =
    w.ledger.enter r >>= fun l => ({ w with ledger := l } : Writer).enterAll rs := by
  rw [enterAll, List.foldlM_cons]
  cases w.ledger.enter r <;> rfl

theorem enterAll_append : w.enterAll (rs ++ rs') = w.enterAll rs >>= fun w => w.enterAll rs' :=
  List.foldlM_append

theorem enterAll_of_fits (h : w.ledger.Fits rs) : w.enterAll rs = .ok (w.after rs) := by
  induction rs generalizing w with
  | nil =>
    rw [after_nil]
    rfl
  | cons r rs ih =>
    obtain ⟨hfirst, hrest⟩ := Ledger.fits_append.mp (show w.ledger.Fits ([r] ++ rs) from h)
    rw [enterAll_cons, Ledger.enter_of_fits hfirst, ok_bind, after_cons]
    exact ih (w := w.after [r]) hrest

theorem lighter_of_enterAll (h : w.enterAll rs = .ok w') : w.Lighter w' := by
  induction rs generalizing w with
  | nil =>
    cases h
    exact .refl _
  | cons r rs ih =>
    rw [enterAll_cons] at h
    obtain ⟨l, hl, h⟩ := bind_eq_ok.mp h
    have hfirst : w.Lighter { w with ledger := l } := ⟨rfl, Ledger.lighter_of_enter hl⟩
    exact hfirst.trans (ih h)

theorem Lighter.enterAll (hv : v.Lighter w) (h : w.enterAll rs = .ok w') :
    ∃ v', v.enterAll rs = .ok v' ∧ v'.Lighter w' := by
  induction rs generalizing v w with
  | nil =>
    cases h
    exact ⟨v, rfl, hv⟩
  | cons r rs ih =>
    rw [enterAll_cons] at h
    obtain ⟨l, hl, h⟩ := bind_eq_ok.mp h
    obtain ⟨l', hl', hlighter⟩ := hv.ledger.enter hl
    have hfirst : Writer.Lighter { v with ledger := l' } { w with ledger := l } :=
      ⟨hv.adapts_eq, hlighter⟩
    obtain ⟨v', hv', hv''⟩ := ih hfirst h
    refine ⟨v', ?_, hv''⟩
    rw [enterAll_cons, hl', ok_bind, hv']

theorem Appends.oblivious (hf : Appends f) : Oblivious f where
  grows := by
    intro w w' a h
    obtain ⟨rs, hrs, -⟩ := hf w w' a h
    exact lighter_of_enterAll hrs
  eased := by
    intro v w w' a hv h
    obtain ⟨rs, hrs, hf'⟩ := hf w w' a h
    obtain ⟨v', hv', hlighter⟩ := hv.enterAll hrs
    exact ⟨v', hf' v v' hv.adapts_eq hv', hlighter⟩

theorem appends_ok (a : α) : Appends fun w => .ok (w, a) := by
  intro w w' b h
  cases h
  refine ⟨[], rfl, ?_⟩
  intro v v' _ hv
  cases hv
  rfl

theorem Appends.bind {g : Writer × α → Except Fault (Writer × β)} (hf : Appends f)
    (hg : ∀ a, Appends fun w => g (w, a)) : Appends fun w => f w >>= g := by
  intro w w' b h
  obtain ⟨⟨w₁, a⟩, h₁, h₂⟩ := bind_eq_ok.mp h
  obtain ⟨rs, hrs, hf'⟩ := hf w w₁ a h₁
  obtain ⟨rs', hrs', hg'⟩ := hg a w₁ w' b h₂
  refine ⟨rs ++ rs', ?_, ?_⟩
  · rw [enterAll_append, hrs, ok_bind, hrs']
  · intro v v' hv h
    rw [enterAll_append] at h
    obtain ⟨v₁, hv₁, h⟩ := bind_eq_ok.mp h
    have hadapts : v₁.adapts = w₁.adapts := by
      rw [← (lighter_of_enterAll hv₁).adapts_eq, hv, (lighter_of_enterAll hrs).adapts_eq]
    exact bind_eq_ok.mpr ⟨_, hf' v v₁ hv hv₁, hg' v₁ v' hadapts h⟩

theorem appends_bind {x : Except Fault β} {g : β → Writer → Except Fault (Writer × α)}
    (hg : ∀ b, Appends (g b)) : Appends fun w => x >>= fun b => g b w := by
  cases x with
  | error e => exact nofun
  | ok b => exact hg b

theorem appends_foldlM {γ : Type} {f : Writer × α → γ → Except Fault (Writer × α)}
    (hf : ∀ a c, Appends fun w => f (w, a) c) (l : List γ) (a : α) :
    Appends fun w => l.foldlM f (w, a) := by
  induction l generalizing a with
  | nil => exact appends_ok a
  | cons c l ih => exact (hf a c).bind ih

theorem write_eq_bind {n : ℕ} (w : Writer) (c : Cdf n) (s : ℕ) : w.write c s = do
    let cost ← c.symbolCost s
    let ledger ← w.ledger.enter ⟨s, n, cost⟩
    let c ← (if w.adapts then c.adapt s else .ok c : Except Fault (Cdf n))
    return ({ w with ledger }, c) := by
  rw [write]
  cases w.adapts <;> rfl

theorem appends_write {n : ℕ} (c : Cdf n) (s : ℕ) : Appends fun w => w.write c s := by
  intro w w' c' h
  simp only [write_eq_bind] at h ⊢
  obtain ⟨cost, hcost, h⟩ := bind_eq_ok.mp h
  obtain ⟨ledger, hledger, h⟩ := bind_eq_ok.mp h
  obtain ⟨c₁, hadapt, h⟩ := bind_eq_ok.mp h
  cases h
  refine ⟨[⟨s, n, cost⟩], ?_, ?_⟩
  · rw [enterAll_cons, hledger]
    rfl
  · intro v v' hv h
    rw [enterAll_cons] at h
    obtain ⟨ledger', hledger', h⟩ := bind_eq_ok.mp h
    cases h
    rw [hcost, ok_bind, hledger', ok_bind, hv, hadapt, ok_bind, pure_eq_ok]

theorem oblivious_write {n : ℕ} (c : Cdf n) (s : ℕ) : Oblivious fun w => w.write c s :=
  (appends_write c s).oblivious

end Writer

open Writer

theorem Tables.appends_writeSymbols (t : Tables Cdf) (code : List (Symbol × ℕ)) :
    Appends fun w => t.writeSymbols w code := by
  induction code generalizing t with
  | nil => exact appends_ok t
  | cons s code ih =>
    apply appends_bind
    intro place
    exact (appends_write _ _).bind fun c => ih (place.put c)

namespace VectorModel

theorem appends_writeComponent (m : VectorModel) (p : Precision) (a : Axis) (comp : ℤ) :
    Appends fun w => m.writeComponent w p a comp := by
  apply Appends.bind
  · apply appends_bind
    intro symbols
    exact Tables.appends_writeSymbols _ symbols
  · intro t
    exact appends_ok (m.setComponent a t)

theorem appends_writeDifference (m : VectorModel) (p : Precision) (d : MotionVector) :
    Appends fun w => m.writeDifference w p d := by
  apply (appends_write _ _).bind
  intro joints
  apply appends_foldlM
  intro m a
  dsimp only
  split
  · exact appends_writeComponent m p a (d.along a)
  · exact appends_ok m

end VectorModel

namespace Call

variable {c : Call} {calls : List Call} {t t' : TileModel} {w w' : Writer}

theorem appends_write (t : TileModel) (c : Call) : Appends fun w => c.write w t := by
  simp only [write_eq_checked]
  apply appends_bind
  intro _
  apply appends_bind
  intro d
  exact (VectorModel.appends_writeDifference _ _ d).bind fun m => appends_ok (c.setModel t m)

theorem oblivious_write (t : TileModel) (c : Call) : Oblivious fun w => c.write w t :=
  (appends_write t c).oblivious

theorem write_eq_ok (ht : (c.model t).All Cdf.Valid) : c.write w t = .ok (w', t') ↔
    c.Accepted ∧ w.enterAll (c.records t) = .ok w' ∧ t' = if w.adapts then c.adapted t else t := by
  -- A journal takes everything, so what is written shows on one.
  let v : Writer := ⟨w.adapts, .journal []⟩
  have hv (rs : List Record) : v.enterAll rs = .ok (v.after rs) := enterAll_of_fits trivial
  have hjournal (hc : c.Accepted) : c.write v t = .ok (v.after (c.records t), if w.adapts then
      c.adapted t else t) := write_eq ht hc.1 hc.2 trivial
  constructor
  · intro h
    obtain ⟨rs, hrs, hwrite⟩ := appends_write t c w w' t' h
    have hwritten := hwrite v (v.after rs) rfl (hv rs)
    have hc : c.Accepted := (write_ok_iff ht (w := v) trivial).mp ⟨_, hwritten⟩
    cases (hjournal hc).symm.trans hwritten
    exact ⟨hc, hrs, rfl⟩
  · rintro ⟨hc, hw, rfl⟩
    obtain ⟨rs, hrs, hwrite⟩ := appends_write t c _ _ _ (hjournal hc)
    cases (hv rs).symm.trans hrs
    exact hwrite w w' rfl hw

theorem write_inversion (ht : (c.model t).All Cdf.Valid) (h : c.write w t = .ok (w', t')) :
    c.Accepted ∧ t' = if w.adapts then c.adapted t else t := by
  obtain ⟨hc, -, ht'⟩ := (write_eq_ok ht).mp h
  exact ⟨hc, ht'⟩

theorem writeAll_inversion (ht : ∀ c ∈ calls, (c.model t).All Cdf.Valid) (ha : w.adapts = true)
    (h : writeAll w t calls = .ok (w', t')) :
    (∀ c ∈ calls, c.Accepted) ∧ t' = calls.foldl adapted t := by
  induction calls generalizing w t with
  | nil =>
    cases h
    exact ⟨nofun, rfl⟩
  | cons c calls ih =>
    obtain ⟨⟨w₁, t₁⟩, hstep, h⟩ := bind_eq_ok.mp h
    obtain ⟨hc, ht₁⟩ := write_inversion (ht c (.head _)) hstep
    rw [if_pos ha] at ht₁
    subst ht₁
    have ha₁ : w₁.adapts = true := ((oblivious_write t c).grows _ _ _ hstep).adapts_eq.symm.trans ha
    obtain ⟨hcalls, ht'⟩ := ih (models_adapted fun c' hc' => ht c' (.tail _ hc')) ha₁ h
    exact ⟨List.forall_mem_cons.mpr ⟨hc, hcalls⟩, ht'⟩

end Call

end MotionEntropy
