import Mathlib.Data.Vector.Basic
import MotionEntropy.Tables
import MotionEntropy.Proofs.FaultPropagation

namespace MotionEntropy

theorem forall_get_ofFn {A : Type} {Q : A → Prop} {n : ℕ} {f : Fin n → A} :
    (∀ i, Q ((Vector.ofFn f).get i)) ↔ ∀ i, Q (f i) := by
  apply forall_congr'
  intro i
  have hget : (Vector.ofFn f).get i = f i := Vector.getElem_ofFn _
  rw [hget]

theorem forall_get_map {A B : Type} {Q : B → Prop} {n : ℕ} {v : Vector A n} {f : A → B} :
    (∀ i, Q ((v.map f).get i)) ↔ ∀ i, Q (f (v.get i)) := by
  apply forall_congr'
  intro i
  have hget : (v.map f).get i = f (v.get i) := Vector.getElem_map _ _
  rw [hget]

variable {α β : ℕ → Type} {P : {n : ℕ} → α n → Prop}

theorem ok_sigma_inj {n : ℕ} {a b : α n} :
    (Except.ok ⟨n, a⟩ : Except Fault (Σ n, α n)) = .ok ⟨n, b⟩ ↔ a = b := by
  simp

theorem of_exists_found {n : ℕ} {Q : β n → Prop} {x : Except Fault (Σ n, β n)} {b : β n}
    (hx : x = .ok ⟨n, b⟩) (h : ∃ b', x = .ok ⟨n, b'⟩ ∧ Q b') : Q b := by
  obtain ⟨b', hb', hQ⟩ := h
  rwa [ok_sigma_inj.mp (hx.symm.trans hb')]

namespace FractionTables

def All (P : {n : ℕ} → α n → Prop) : FractionTables α → Prop
  | joint class0 other => (∀ d : Fin class0Size, P (class0.get d)) ∧ P other
  | split class0 other =>
    (∀ (d : Fin class0Size) (slot : Fin fractionSlots), P ((class0.get d).get slot)) ∧
      ∀ slot : Fin fractionSlots, P (other.get slot)

def class0At (d slot : ℕ) : FractionTables α → Except Fault (Σ n, α n)
  | joint class0 _ =>
    if slot ≠ 0 then .error (.index 1 slot)
    else if h : d < class0Size then .ok ⟨_, class0[d]⟩ else .error (.index class0Size d)
  | split class0 _ =>
    if h : d < class0Size then
      if h' : slot < fractionSlots then .ok ⟨_, class0[d][slot]⟩
      else .error (.index fractionSlots slot)
    else .error (.index class0Size d)

def otherAt (slot : ℕ) : FractionTables α → Except Fault (Σ n, α n)
  | joint _ other => if slot ≠ 0 then .error (.index 1 slot) else .ok ⟨_, other⟩
  | split _ other =>
    if h : slot < fractionSlots then .ok ⟨_, other[slot]⟩ else .error (.index fractionSlots slot)

theorem all_iff {f : FractionTables α} : f.All P ↔
    (∀ d slot n (a : α n), f.class0At d slot = .ok ⟨n, a⟩ → P a) ∧
      ∀ slot n (a : α n), f.otherAt slot = .ok ⟨n, a⟩ → P a := by
  cases f with
  | joint class0 other =>
    constructor
    · rintro ⟨h0, h1⟩
      constructor
      · intro d slot n a h
        simp only [class0At] at h
        split_ifs at h with hs hd
        cases h
        exact h0 ⟨d, hd⟩
      · intro slot n a h
        simp only [otherAt] at h
        split_ifs at h
        cases h
        exact h1
    · rintro ⟨h0, h1⟩
      constructor
      · intro d
        apply h0 d 0
        exact dif_pos d.isLt
      · exact h1 0 _ _ rfl
  | split class0 other =>
    constructor
    · rintro ⟨h0, h1⟩
      constructor
      · intro d slot n a h
        simp only [class0At] at h
        split_ifs at h with hd hs
        cases h
        exact h0 ⟨d, hd⟩ ⟨slot, hs⟩
      · intro slot n a h
        simp only [otherAt] at h
        split_ifs at h with hs
        cases h
        exact h1 ⟨slot, hs⟩
    · rintro ⟨h0, h1⟩
      constructor
      · intro d slot
        apply h0 d slot
        exact (dif_pos d.isLt).trans (dif_pos slot.isLt)
      · intro slot
        apply h1 slot
        exact dif_pos slot.isLt

def mapNamed (g : Symbol → {n : ℕ} → α n → β n) : FractionTables α → FractionTables β
  | joint class0 other =>
    joint (.ofFn fun d => g (.class0Fraction d 0) (class0.get d)) (g (.fraction 0) other)
  | split class0 other =>
    split (.ofFn fun d => .ofFn fun slot => g (.class0Fraction d slot) ((class0.get d).get slot))
      (.ofFn fun slot => g (.fraction slot) (other.get slot))

theorem traverse_eq {f : Symbol → {n : ℕ} → α n → Except Fault (β n)}
    {g : Symbol → {n : ℕ} → α n → β n} {t : FractionTables α}
    (h0 : ∀ d slot n (a : α n), t.class0At d slot = .ok ⟨n, a⟩ →
      f (.class0Fraction d slot) a = .ok (g (.class0Fraction d slot) a))
    (h1 : ∀ slot n (a : α n), t.otherAt slot = .ok ⟨n, a⟩ →
      f (.fraction slot) a = .ok (g (.fraction slot) a)) :
    t.traverse f = .ok (t.mapNamed g) := by
  cases t with
  | joint class0 other =>
    have hclass0 : Checked.collect (fun d : Fin class0Size => f (.class0Fraction d 0) class0[d]) =
        .ok (.ofFn fun d => g (.class0Fraction d 0) (class0.get d)) := by
      rw [Checked.collect_eq_ok]
      intro d
      simp only [Fin.getElem_fin, Vector.getElem_ofFn]
      exact h0 d 0 _ _ (dif_pos d.isLt)
    simp only [traverse, hclass0, ok_bind, h1 0 _ other rfl, pure_eq_ok, mapNamed]
  | split class0 other =>
    have hslots (d : Fin class0Size) : Checked.collect
        (fun slot : Fin fractionSlots => f (.class0Fraction d slot) class0[d][slot]) =
        .ok (.ofFn fun slot => g (.class0Fraction d slot) ((class0.get d).get slot)) := by
      rw [Checked.collect_eq_ok]
      intro slot
      simp only [Fin.getElem_fin, Vector.getElem_ofFn]
      exact h0 d slot _ _ ((dif_pos d.isLt).trans (dif_pos slot.isLt))
    have hclass0 : Checked.collect (fun d : Fin class0Size => Checked.collect
        fun slot : Fin fractionSlots => f (.class0Fraction d slot) class0[d][slot]) =
        .ok (.ofFn fun d => .ofFn fun slot => g (.class0Fraction d slot) ((class0.get d).get slot)) := by
      rw [Checked.collect_eq_ok]
      intro d
      simp only [Fin.getElem_fin, Vector.getElem_ofFn]
      exact hslots d
    have hother : Checked.collect (fun slot : Fin fractionSlots => f (.fraction slot) other[slot]) =
        .ok (.ofFn fun slot => g (.fraction slot) (other.get slot)) := by
      rw [Checked.collect_eq_ok]
      intro slot
      simp only [Fin.getElem_fin, Vector.getElem_ofFn]
      exact h1 slot _ _ (dif_pos slot.isLt)
    simp only [traverse, hclass0, ok_bind, hother, pure_eq_ok, mapNamed]

theorem all_map {Q : {n : ℕ} → β n → Prop} {f : {n : ℕ} → α n → β n}
    (h : ∀ {n} (a : α n), P a → Q (f a)) {t : FractionTables α} (ht : t.All P) : (t.map f).All Q := by
  cases t with
  | joint class0 other =>
    obtain ⟨hclass0, hother⟩ := ht
    constructor
    · rw [forall_get_map]
      intro d
      exact h _ (hclass0 d)
    · exact h _ hother
  | split class0 other =>
    obtain ⟨hclass0, hother⟩ := ht
    constructor
    · rw [forall_get_map (Q := fun v : Vector _ _ => ∀ slot, Q (v.get slot))]
      intro d
      rw [forall_get_map]
      intro slot
      exact h _ (hclass0 d slot)
    · rw [forall_get_map]
      intro slot
      exact h _ (hother slot)

theorem all_mapNamed {Q : {n : ℕ} → β n → Prop} {g : Symbol → {n : ℕ} → α n → β n}
    (h : ∀ s n (a : α n), Q (g s a)) (t : FractionTables α) : (t.mapNamed g).All Q := by
  cases t with
  | joint class0 other =>
    constructor
    · rw [forall_get_ofFn]
      intro d
      apply h
    · apply h
  | split class0 other =>
    constructor
    · rw [forall_get_ofFn (Q := fun v : Vector _ _ => ∀ slot, Q (v.get slot))]
      intro d
      rw [forall_get_ofFn]
      intro slot
      apply h
    · rw [forall_get_ofFn]
      intro slot
      apply h

/-- Tables of one layout, related one by one as their names say. -/
inductive Related (R : Symbol → {n : ℕ} → α n → β n → Prop) :
    FractionTables α → FractionTables β → Prop
  | joint {class0 : Vector (α fractionSize) class0Size} {class0' : Vector (β fractionSize) class0Size}
      {other : α fractionSize} {other' : β fractionSize}
      (hclass0 : ∀ d : Fin class0Size, R (.class0Fraction d 0) (class0.get d) (class0'.get d))
      (hother : R (.fraction 0) other other') : Related R (.joint class0 other) (.joint class0' other')
  | split {class0 : Vector (Vector (α 2) fractionSlots) class0Size}
      {class0' : Vector (Vector (β 2) fractionSlots) class0Size}
      {other : Vector (α 2) fractionSlots} {other' : Vector (β 2) fractionSlots}
      (hclass0 : ∀ (d : Fin class0Size) (slot : Fin fractionSlots),
        R (.class0Fraction d slot) ((class0.get d).get slot) ((class0'.get d).get slot))
      (hother : ∀ slot : Fin fractionSlots, R (.fraction slot) (other.get slot) (other'.get slot)) :
      Related R (.split class0 other) (.split class0' other')

theorem related_of_at {R : Symbol → {n : ℕ} → α n → β n → Prop} {f : FractionTables α}
    {f' : FractionTables β}
    (h0 : ∀ d slot n (a : α n), f.class0At d slot = .ok ⟨n, a⟩ →
      ∃ b : β n, f'.class0At d slot = .ok ⟨n, b⟩ ∧ R (.class0Fraction d slot) a b)
    (h1 : ∀ slot n (a : α n), f.otherAt slot = .ok ⟨n, a⟩ →
      ∃ b : β n, f'.otherAt slot = .ok ⟨n, b⟩ ∧ R (.fraction slot) a b) : f.Related R f' := by
  cases f with
  | joint class0 other =>
    cases f' with
    | joint class0' other' =>
      constructor
      · intro d
        exact of_exists_found (dif_pos d.isLt) (h0 d 0 _ (class0.get d) (dif_pos d.isLt))
      · exact of_exists_found rfl (h1 0 _ other rfl)
    | split class0' other' =>
      obtain ⟨b, hb, -⟩ := h1 0 _ other rfl
      cases hb
  | split class0 other =>
    cases f' with
    | joint class0' other' =>
      obtain ⟨b, hb, -⟩ := h1 0 _ other[0] rfl
      cases hb
    | split class0' other' =>
      constructor
      · intro d slot
        exact of_exists_found ((dif_pos d.isLt).trans (dif_pos slot.isLt))
          (h0 d slot _ ((class0.get d).get slot) ((dif_pos d.isLt).trans (dif_pos slot.isLt)))
      · intro slot
        exact of_exists_found (dif_pos slot.isLt) (h1 slot _ (other.get slot) (dif_pos slot.isLt))

theorem Related.eq {f f' : FractionTables α} (h : f.Related (fun _ {_} a b => b = a) f') :
    f' = f := by
  cases h with
  | @joint class0 class0' other other' hclass0 hother =>
    have hclass0 : class0' = class0 := by
      ext d hd
      exact hclass0 ⟨d, hd⟩
    rw [hclass0, hother]
  | @split class0 class0' other other' hclass0 hother =>
    have hclass0 : class0' = class0 := by
      ext d hd slot hslot
      exact hclass0 ⟨d, hd⟩ ⟨slot, hslot⟩
    have hother : other' = other := by
      ext slot hslot
      exact hother ⟨slot, hslot⟩
    rw [hclass0, hother]

end FractionTables

namespace Tables

structure All (P : {n : ℕ} → α n → Prop) (t : Tables α) : Prop where
  sign : P t.sign
  classes : P t.classes
  class0 : P t.class0
  bits : ∀ i : Fin offsetBits, P (t.bits.get i)
  fraction : t.fraction.All P
  class0Eighth : P t.class0Eighth
  eighth : P t.eighth

variable {t : Tables α} {s s' : Symbol} {p : Place α}

theorem find_of_place (h : t.place s = .ok p) : t.find s = .ok ⟨p.size, p.table⟩ := by
  rw [find, h]; rfl

theorem place_of_find {n : ℕ} {a : α n} (h : t.find s = .ok ⟨n, a⟩) :
    ∃ p : Place α, t.place s = .ok p ∧ (⟨p.size, p.table⟩ : Σ n, α n) = ⟨n, a⟩ := by
  obtain ⟨p, hp, he⟩ := bind_eq_ok.mp h
  cases he
  exact ⟨p, hp, rfl⟩

theorem find_eq (t : Tables α) (s : Symbol) : t.find s = match s with
    | .sign => .ok ⟨_, t.sign⟩
    | .magnitudeClass => .ok ⟨_, t.classes⟩
    | .class0 => .ok ⟨_, t.class0⟩
    | .bit i => if h : i < offsetBits then .ok ⟨_, t.bits[i]⟩ else .error (.index offsetBits i)
    | .class0Fraction d slot => t.fraction.class0At d slot
    | .fraction slot => t.fraction.otherAt slot
    | .class0Eighth => .ok ⟨_, t.class0Eighth⟩
    | .eighth => .ok ⟨_, t.eighth⟩ := by
  obtain ⟨sign, classes, class0, bits, fraction, class0Eighth, eighth⟩ := t
  cases s with
  | bit i => simp only [find, place]; split <;> rfl
  | class0Fraction d slot =>
    cases fraction <;> simp only [find, place, FractionTables.class0At] <;> split_ifs <;> rfl
  | fraction slot =>
    cases fraction <;> simp only [find, place, FractionTables.otherAt] <;> split_ifs <;> rfl
  | _ => rfl

theorem put_table (h : t.place s = .ok p) : p.put p.table = t := by
  obtain ⟨sign, classes, class0, bits, fraction, class0Eighth, eighth⟩ := t
  cases s <;> cases fraction <;> simp only [place] at h <;> (try split_ifs at h) <;> cases h <;> simp

theorem find_put (h : t.place s = .ok p) (a : α p.size) (s' : Symbol) :
    (p.put a).find s' = if s' = s then .ok ⟨p.size, a⟩ else t.find s' := by
  obtain ⟨sign, classes, class0, bits, fraction, class0Eighth, eighth⟩ := t
  rw [find_eq, find_eq]
  cases s with
  | bit i =>
    simp only [place] at h
    split_ifs at h with hi
    cases h
    cases s' <;> grind
  | class0Fraction d slot =>
    cases fraction <;> simp only [place] at h <;> split_ifs at h <;> cases h <;>
      cases s' <;> grind [FractionTables.class0At, FractionTables.otherAt]
  | fraction slot =>
    cases fraction <;> simp only [place] at h <;> split_ifs at h <;> cases h <;>
      cases s' <;> grind [FractionTables.class0At, FractionTables.otherAt]
  | _ =>
    cases h
    cases s' <;> rfl

theorem put_layout (h : t.place s = .ok p) (a : α p.size) : (p.put a).layout = t.layout := by
  obtain ⟨sign, classes, class0, bits, fraction, class0Eighth, eighth⟩ := t
  cases s <;> cases fraction <;> simp only [place] at h <;> (try split_ifs at h) <;> cases h <;> rfl

theorem all_iff : t.All P ↔ ∀ s n (a : α n), t.find s = .ok ⟨n, a⟩ → P a := by
  constructor
  · intro ht s n a h
    rw [find_eq] at h
    cases s with
    | sign => cases h; exact ht.sign
    | magnitudeClass => cases h; exact ht.classes
    | class0 => cases h; exact ht.class0
    | bit i =>
      simp only at h
      split_ifs at h with hi
      cases h
      exact ht.bits ⟨i, hi⟩
    | class0Fraction d slot => exact (FractionTables.all_iff.mp ht.fraction).1 d slot n a h
    | fraction slot => exact (FractionTables.all_iff.mp ht.fraction).2 slot n a h
    | class0Eighth => cases h; exact ht.class0Eighth
    | eighth => cases h; exact ht.eighth
  · intro h
    simp only [find_eq] at h
    have hbits (i : Fin offsetBits) : P (t.bits.get i) := by
      apply h (.bit i)
      exact dif_pos i.isLt
    have hfraction : t.fraction.All P := by
      apply FractionTables.all_iff.mpr
      constructor
      · intro d slot
        exact h (.class0Fraction d slot)
      · intro slot
        exact h (.fraction slot)
    exact ⟨h .sign _ _ rfl, h .magnitudeClass _ _ rfl, h .class0 _ _ rfl, hbits, hfraction,
      h .class0Eighth _ _ rfl, h .eighth _ _ rfl⟩

theorem All.mono {Q : {n : ℕ} → α n → Prop} (hPQ : ∀ {n} (a : α n), P a → Q a) (ht : t.All P) :
    t.All Q := by
  rw [all_iff] at ht ⊢
  intro s n a h
  exact hPQ a (ht s n a h)

theorem All.put (ht : t.All P) (h : t.place s = .ok p) {a : α p.size} (ha : P a) :
    (p.put a).All P := by
  rw [all_iff] at ht ⊢
  intro s' n b hb
  rw [find_put h] at hb
  split_ifs at hb with hs
  · cases hb; exact ha
  · exact ht s' n b hb

def mapNamed (g : Symbol → {n : ℕ} → α n → β n) (t : Tables α) : Tables β where
  sign := g .sign t.sign
  classes := g .magnitudeClass t.classes
  class0 := g .class0 t.class0
  bits := .ofFn fun i => g (.bit i) (t.bits.get i)
  fraction := t.fraction.mapNamed g
  class0Eighth := g .class0Eighth t.class0Eighth
  eighth := g .eighth t.eighth

theorem traverse_eq {f : Symbol → {n : ℕ} → α n → Except Fault (β n)}
    {g : Symbol → {n : ℕ} → α n → β n}
    (h : ∀ s n (a : α n), t.find s = .ok ⟨n, a⟩ → f s a = .ok (g s a)) :
    t.traverse f = .ok (t.mapNamed g) := by
  simp only [find_eq] at h
  have hbits : Checked.collect (fun i : Fin offsetBits => f (.bit i) t.bits[i]) =
      .ok (.ofFn fun i => g (.bit i) (t.bits.get i)) := by
    rw [Checked.collect_eq_ok]
    intro i
    simp only [Fin.getElem_fin, Vector.getElem_ofFn]
    exact h (.bit i) _ _ (dif_pos i.isLt)
  have hfraction : t.fraction.traverse f = .ok (t.fraction.mapNamed g) := by
    apply FractionTables.traverse_eq
    · intro d slot
      exact h (.class0Fraction d slot)
    · intro slot
      exact h (.fraction slot)
  simp only [traverse, hfraction, hbits, h .class0Eighth _ _ rfl, h .eighth _ _ rfl,
    h .sign _ _ rfl, h .magnitudeClass _ _ rfl, h .class0 _ _ rfl, ok_bind, pure_eq_ok, mapNamed]

theorem layout_mapNamed (g : Symbol → {n : ℕ} → α n → β n) (t : Tables α) :
    (t.mapNamed g).layout = t.layout := by
  obtain ⟨sign, classes, class0, bits, fraction, class0Eighth, eighth⟩ := t
  cases fraction <;> rfl

theorem All.map {Q : {n : ℕ} → β n → Prop} {f : {n : ℕ} → α n → β n}
    (h : ∀ {n} (a : α n), P a → Q (f a)) (ht : t.All P) : (t.map f).All Q where
  sign := h _ ht.sign
  classes := h _ ht.classes
  class0 := h _ ht.class0
  bits := forall_get_map.mpr fun i => h _ (ht.bits i)
  fraction := FractionTables.all_map h ht.fraction
  class0Eighth := h _ ht.class0Eighth
  eighth := h _ ht.eighth

theorem layout_map (f : {n : ℕ} → α n → β n) (t : Tables α) : (t.map f).layout = t.layout := by
  obtain ⟨sign, classes, class0, bits, fraction, class0Eighth, eighth⟩ := t
  cases fraction <;> rfl

theorem all_mapNamed {Q : {n : ℕ} → β n → Prop} {g : Symbol → {n : ℕ} → α n → β n}
    (h : ∀ s n (a : α n), Q (g s a)) (t : Tables α) : (t.mapNamed g).All Q where
  sign := h _ _ _
  classes := h _ _ _
  class0 := h _ _ _
  bits := forall_get_ofFn.mpr fun _ => h _ _ _
  fraction := FractionTables.all_mapNamed h t.fraction
  class0Eighth := h _ _ _
  eighth := h _ _ _

theorem find_mapNamed (g : Symbol → {n : ℕ} → α n → β n) {n : ℕ} {a : α n}
    (h : t.find s = .ok ⟨n, a⟩) : (t.mapNamed g).find s = .ok ⟨n, g s a⟩ := by
  obtain ⟨sign, classes, class0, bits, fraction, class0Eighth, eighth⟩ := t
  rw [find_eq] at h ⊢
  cases s with
  | bit i =>
    simp only at h
    split_ifs at h with hi
    cases h
    simp only [mapNamed, dif_pos hi, Vector.getElem_ofFn]
    rfl
  | class0Fraction d slot =>
    cases fraction <;> simp only [FractionTables.class0At] at h <;> split_ifs at h <;> cases h <;>
      simp_all [mapNamed, FractionTables.mapNamed, FractionTables.class0At] <;> rfl
  | fraction slot =>
    cases fraction <;> simp only [FractionTables.otherAt] at h <;> split_ifs at h <;> cases h <;>
      simp_all [mapNamed, FractionTables.mapNamed, FractionTables.otherAt]
    rfl
  | _ => cases h; rfl

theorem find_map (f : {n : ℕ} → α n → β n) (t : Tables α) (s : Symbol) :
    (t.map f).find s = (t.find s).map fun a => ⟨a.1, f a.2⟩ := by
  obtain ⟨sign, classes, class0, bits, fraction, class0Eighth, eighth⟩ := t
  rw [find_eq, find_eq]
  cases s with
  | bit i =>
    simp only [map]
    split_ifs
    · rw [Vector.getElem_map]
      rfl
    · rfl
  | class0Fraction d slot =>
    cases fraction <;> simp only [map, FractionTables.map, FractionTables.class0At] <;>
      split_ifs <;> simp [Except.map]
  | fraction slot =>
    cases fraction <;> simp only [map, FractionTables.map, FractionTables.otherAt] <;>
      split_ifs <;> simp [Except.map]
  | _ => rfl

structure Related (R : Symbol → {n : ℕ} → α n → β n → Prop) (t : Tables α) (t' : Tables β) :
    Prop where
  sign : R .sign t.sign t'.sign
  classes : R .magnitudeClass t.classes t'.classes
  class0 : R .class0 t.class0 t'.class0
  bits : ∀ i : Fin offsetBits, R (.bit i) (t.bits.get i) (t'.bits.get i)
  fraction : t.fraction.Related R t'.fraction
  class0Eighth : R .class0Eighth t.class0Eighth t'.class0Eighth
  eighth : R .eighth t.eighth t'.eighth

theorem related_of_find {R : Symbol → {n : ℕ} → α n → β n → Prop} {t' : Tables β}
    (h : ∀ s n (a : α n), t.find s = .ok ⟨n, a⟩ →
      ∃ b : β n, t'.find s = .ok ⟨n, b⟩ ∧ R s a b) : t.Related R t' := by
  simp only [find_eq] at h
  exact {
    sign := of_exists_found rfl (h .sign _ _ rfl)
    classes := of_exists_found rfl (h .magnitudeClass _ _ rfl)
    class0 := of_exists_found rfl (h .class0 _ _ rfl)
    bits := fun i => of_exists_found (dif_pos i.isLt) (h (.bit i) _ _ (dif_pos i.isLt))
    fraction := FractionTables.related_of_at (fun d slot => h (.class0Fraction d slot))
      fun slot => h (.fraction slot)
    class0Eighth := of_exists_found rfl (h .class0Eighth _ _ rfl)
    eighth := of_exists_found rfl (h .eighth _ _ rfl) }

theorem Related.eq {t t' : Tables α} (h : t.Related (fun _ {_} a b => b = a) t') : t' = t := by
  obtain ⟨sign, classes, class0, bits, fraction, class0Eighth, eighth⟩ := t
  obtain ⟨sign', classes', class0', bits', fraction', class0Eighth', eighth'⟩ := t'
  have hbits : bits' = bits := by
    ext i hi
    exact h.bits ⟨i, hi⟩
  have hfraction : fraction' = fraction := h.fraction.eq
  cases h.sign
  cases h.classes
  cases h.class0
  cases h.class0Eighth
  cases h.eighth
  rw [hbits, hfraction]

theorem eq_of_find {t' : Tables α} (h : ∀ s n (a : α n), t.find s = .ok ⟨n, a⟩ →
    t'.find s = .ok ⟨n, a⟩) : t' = t := by
  apply Related.eq
  apply related_of_find
  intro s n a ha
  exact ⟨a, h s n a ha, rfl⟩

end Tables

def Layout.slots : Layout → ℕ
  | joint => 1
  | split => fractionSlots

def Layout.Has (layout : Layout) : Symbol → Prop
  | .bit i => i < offsetBits
  | .class0Fraction d slot => d < class0Size ∧ slot < layout.slots
  | .fraction slot => slot < layout.slots
  | _ => True

def Layout.alphabet (layout : Layout) : Symbol → ℕ
  | .magnitudeClass => classCount
  | .class0 => class0Size
  | .class0Fraction _ _ | .fraction _ => if layout = .joint then fractionSize else 2
  | _ => 2

theorem Tables.find_of_has (t : Tables α) {s : Symbol} (h : t.layout.Has s) :
    ∃ a : α (t.layout.alphabet s), t.find s = .ok ⟨_, a⟩ := by
  obtain ⟨sign, classes, class0, bits, fraction, class0Eighth, eighth⟩ := t
  rw [find_eq]
  cases s with
  | bit i => exact ⟨_, dif_pos h⟩
  | class0Fraction d slot =>
    obtain ⟨hd, hs⟩ := h
    cases fraction with
    | joint class0 other => exact ⟨_, (if_neg (by simpa using Nat.lt_one_iff.mp hs)).trans (dif_pos hd)⟩
    | split class0 other => exact ⟨_, (dif_pos hd).trans (dif_pos hs)⟩
  | fraction slot =>
    cases fraction with
    | joint class0 other => exact ⟨_, if_neg (by simpa using Nat.lt_one_iff.mp h)⟩
    | split class0 other => exact ⟨_, dif_pos h⟩
  | _ => exact ⟨_, rfl⟩

end MotionEntropy
