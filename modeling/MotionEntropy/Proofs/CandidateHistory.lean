import MotionEntropy.Proofs.ReferenceSets

namespace MotionEntropy

theorem take_snoc_take {c : Candidate} {n : ℕ} {cs : List Candidate} :
    (cs.take n ++ [c]).take n = (cs ++ [c]).take n := by
  rw [List.take_append, List.take_append, List.take_take, Nat.min_self, List.length_take]
  congr 2
  omega

namespace CandidateStack

variable {s s' : CandidateStack} {c : Candidate}

theorem eq_of_fields (hcandidates : s.candidates = s'.candidates)
    (hglobal : s.globalMotion = s'.globalMotion) : s = s' := by
  cases s
  cases s'
  cases hcandidates
  cases hglobal
  rfl

theorem candidates_push : (s.push c).candidates = (s.candidates ++ [c]).take capacity := by
  have hle := s.length_le
  rw [push]
  split
  · next h =>
    have hlength : s.candidates.length = capacity := of_decide_eq_true h
    rw [List.take_append_of_le_length (by omega), List.take_of_length_le hle]
  · next h =>
    have hlt := s.length_lt_of_not_isFull h
    rw [List.take_of_length_le]
    rw [List.length_append]
    exact hlt

theorem globalMotion_push : (s.push c).globalMotion = s.globalMotion := by
  rw [push]
  split <;> rfl

end CandidateStack

namespace RefPair

def refusal (r : RefPair) (which : ℕ) : Option Fault :=
  if r.isCompound then
    if which ≤ 1 then none else some (.broken .eitherReference)
  else if which = 0 then none else some (.broken .soleReference)

def predicted (r : RefPair) (which rank : ℕ) (s : CandidateStack) : MotionVector :=
  match s.candidates[rank]? with
  | some c => if which = 1 then c.second else c.first
  | none => if r.isCompound then .zero else s.globalMotion

end RefPair

namespace Block

def IsMixed (b : Block) : Prop := b.mode = .nearNew ∨ b.mode = .newNear

instance (b : Block) : Decidable b.IsMixed := inferInstanceAs (Decidable (_ ∨ _))

def place (b : Block) : ℕ := if b.IsMixed then b.index + 1 else b.index

def placeRefusal (b : Block) : Option Fault :=
  if b.IsMixed then
    if b.refs.isCompound then
      if b.place < 18446744073709551616 then none else some (.overflow .add)
    else some (.broken .compoundBlock)
  else none

def refusal (b : Block) (which : ℕ) : Option Fault := b.placeRefusal.or (b.refs.refusal which)

variable {b : Block}

theorem rank_of_mixed (h : b.IsMixed) : b.rank =
    require .compoundBlock b.refs.isCompound >>= fun _ => Checked.word64 .add (b.index + 1) := by
  obtain ⟨mode, refs, index⟩ := b
  obtain rfl | rfl : mode = .nearNew ∨ mode = .newNear := h
  · rfl
  · rfl

theorem rank_of_not_mixed (h : ¬b.IsMixed) : b.rank = .ok b.index := by
  obtain ⟨mode, refs, index⟩ := b
  cases mode with
  | nearNew => exact absurd (.inl rfl) h
  | newNear => exact absurd (.inr rfl) h
  | _ => rfl

theorem rank_eq : b.rank = b.placeRefusal.elim (.ok b.place) .error := by
  rw [placeRefusal, place]
  by_cases hmixed : b.IsMixed
  · rw [rank_of_mixed hmixed, if_pos hmixed, if_pos hmixed]
    by_cases hcompound : b.refs.isCompound
    · rw [require_of hcompound, ok_bind, if_pos hcompound, Checked.word64]
      split <;> rfl
    · rw [require_of_not hcompound, error_bind, if_neg hcompound]
      rfl
  · rw [rank_of_not_mixed hmixed, if_neg hmixed, if_neg hmixed]
    rfl

end Block

namespace Predictor

namespace Action

def refs : Action → RefPair
  | push r _ => r
  | setGlobal r _ => r
  | clear r => r

def change : Action → CandidateStack → CandidateStack
  | push _ c => (·.push c)
  | setGlobal _ mv => (·.setGlobal mv)
  | clear _ => .clear

variable (refs : RefSet)

def clears : Action → Bool
  | clear r => r.set = refs
  | _ => false

def pushed? : Action → Option Candidate
  | push r c => if r.set = refs then some c else none
  | _ => none

def global? : Action → Option MotionVector
  | setGlobal r mv => if r.set = refs then some mv else none
  | _ => none

end Action

/-- The candidates pushed for `refs` since they were last cleared, in order. -/
def pushed (refs : RefSet) (actions : List Action) : List Candidate :=
  ((actions.reverse.takeWhile fun a => !a.clears refs).filterMap (Action.pushed? refs)).reverse

def lastGlobal (refs : RefSet) (actions : List Action) : MotionVector :=
  (actions.reverse.findSome? (Action.global? refs)).getD .zero

def gathered (actions : List Action) (refs : RefSet) : CandidateStack where
  candidates := (pushed refs actions).take CandidateStack.capacity
  globalMotion := lastGlobal refs actions
  length_le := List.length_take_le ..

def Mirrors (p : Predictor) (actions : List Action) : Prop :=
  ∀ r : RefPair, r.Usable → p.stack r = .ok (gathered actions r.set)

/-- Whether some updates of `r` change what a block with the references `r'` reads. -/
def Shows (p : Predictor) (r r' : RefPair) : Prop :=
  ∃ (updates : List Action) (p' : Predictor) (b : Block) (which : ℕ), (∀ a ∈ updates, a.refs = r) ∧
    updates.foldlM perform p = .ok p' ∧ b.refs = r' ∧ p'.blockVector b which ≠ p.blockVector b which

variable {p p' : Predictor} {a : Action} {actions updates : List Action} {refs : RefSet}
  {r r' : RefPair} {b : Block} {which : ℕ} {s : CandidateStack}

theorem pushed_snoc : pushed refs (actions ++ [a]) =
    if a.clears refs then [] else pushed refs actions ++ (a.pushed? refs).toList := by
  rw [pushed, List.reverse_append, List.reverse_singleton, List.singleton_append,
    List.takeWhile_cons]
  cases hclears : a.clears refs with
  | true => rfl
  | false =>
    show (List.filterMap (Action.pushed? refs) (a :: _)).reverse = _
    rw [List.filterMap_cons]
    cases a.pushed? refs with
    | none => exact (List.append_nil _).symm
    | some c => exact List.reverse_cons ..

theorem lastGlobal_snoc : lastGlobal refs (actions ++ [a]) =
    (a.global? refs).getD (lastGlobal refs actions) := by
  rw [lastGlobal, List.reverse_append, List.reverse_singleton, List.singleton_append,
    List.findSome?_cons]
  cases a.global? refs <;> rfl

theorem pushed_snoc_of_ne (h : a.refs.set ≠ refs) :
    pushed refs (actions ++ [a]) = pushed refs actions := by
  have hclears : a.clears refs = false := by
    cases a <;> first | rfl | exact decide_eq_false h
  have hpushed : a.pushed? refs = none := by
    cases a <;> first | rfl | exact if_neg h
  rw [pushed_snoc, hclears, hpushed]
  exact List.append_nil _

theorem lastGlobal_snoc_of_ne (h : a.refs.set ≠ refs) :
    lastGlobal refs (actions ++ [a]) = lastGlobal refs actions := by
  have hglobal : a.global? refs = none := by
    cases a <;> first | rfl | exact if_neg h
  rw [lastGlobal_snoc, hglobal]
  rfl

theorem gathered_snoc_of_ne (h : a.refs.set ≠ refs) :
    gathered (actions ++ [a]) refs = gathered actions refs := by
  apply CandidateStack.eq_of_fields
  · exact congrArg (List.take _) (pushed_snoc_of_ne h)
  · exact lastGlobal_snoc_of_ne h

theorem gathered_snoc_of_eq (h : a.refs.set = refs) :
    gathered (actions ++ [a]) refs = a.change (gathered actions refs) := by
  apply CandidateStack.eq_of_fields
  · show (pushed refs (actions ++ [a])).take _ = _
    rw [pushed_snoc]
    cases a with
    | push r c =>
      have hpushed : (Action.push r c).pushed? refs = some c := if_pos h
      rw [hpushed, Action.change, CandidateStack.candidates_push]
      exact take_snoc_take.symm
    | setGlobal r mv => exact congrArg (List.take _) (List.append_nil _)
    | clear r =>
      have hclears : (Action.clear r).clears refs = true := decide_eq_true h
      rw [hclears]
      rfl
  · show lastGlobal refs (actions ++ [a]) = _
    rw [lastGlobal_snoc]
    cases a with
    | push r c =>
      rw [Action.change, CandidateStack.globalMotion_push]
      rfl
    | setGlobal r mv =>
      have hglobal : (Action.setGlobal r mv).global? refs = some mv := if_pos h
      rw [hglobal]
      rfl
    | clear r => rfl

theorem gathered_append_of_ne (h : ∀ a ∈ updates, a.refs.set ≠ refs) :
    gathered (actions ++ updates) refs = gathered actions refs := by
  induction updates generalizing actions with
  | nil => rw [List.append_nil]
  | cons a updates ih =>
    rw [List.append_cons, ih fun a ha => h a (.tail _ ha), gathered_snoc_of_ne (h a (.head _))]

theorem perform_eq (p : Predictor) (a : Action) : p.perform a = p.update a.refs a.change := by
  cases a <;> rfl

theorem mirrors_empty : empty.Mirrors [] := by
  intro r hr
  obtain ⟨k, hk, hset⟩ := hr.exists_key
  have hlt := RefPair.lt_keyCount hset
  have hstack : (empty.table)[k] = gathered [] r.set := Vector.getElem_replicate ..
  rw [stack_eq hk hlt, hstack]

theorem Mirrors.perform (h : p.Mirrors actions) (ha : a.refs.Usable) :
    ∃ p', p.perform a = .ok p' ∧ p'.Mirrors (actions ++ [a]) := by
  obtain ⟨k, hk, hplace⟩ := ha.exists_key
  have hlt := RefPair.lt_keyCount hplace
  refine ⟨_, (perform_eq p a).trans (update_eq hk hlt a.change), ?_⟩
  intro r hr
  obtain ⟨k', hk', hplace'⟩ := hr.exists_key
  have hlt' := RefPair.lt_keyCount hplace'
  have hstack := h r hr
  have hkey := ha.key_eq_iff hr hk hk'
  rw [stack_eq hk' hlt'] at hstack ⊢
  -- Equal keys are equal sets, so the update reaches the pairs of its own set and no others.
  by_cases hset : a.refs.set = r.set
  · obtain rfl := hkey.mpr hset
    rw [gathered_snoc_of_eq hset, ← Except.ok.inj hstack]
    exact congrArg Except.ok (Vector.getElem_setIfInBounds_self ..)
  · have hne : k ≠ k' := mt hkey.mp hset
    rw [gathered_snoc_of_ne hset, ← hstack]
    exact congrArg Except.ok (Vector.getElem_setIfInBounds_ne hlt' hne)

theorem Mirrors.run (h : p.Mirrors actions) (hupdates : ∀ a ∈ updates, a.refs.Usable) :
    ∃ p', updates.foldlM Predictor.perform p = .ok p' ∧ p'.Mirrors (actions ++ updates) := by
  induction updates generalizing p actions with
  | nil => exact ⟨p, rfl, by rwa [List.append_nil]⟩
  | cons a updates ih =>
    obtain ⟨p₁, hstep, h₁⟩ := h.perform (hupdates a (.head _))
    obtain ⟨p', hrun, h'⟩ := ih h₁ fun a ha => hupdates a (.tail _ ha)
    rw [← List.append_cons] at h'
    refine ⟨p', ?_, h'⟩
    rw [List.foldlM_cons, hstep, ok_bind, hrun]

theorem vectorAt_eq {rank : ℕ} (hs : p.stack r = .ok s) : p.vectorAt r which rank =
    (r.refusal which).elim (.ok (r.predicted which rank s)) .error := by
  rw [vectorAt, hs, ok_bind, RefPair.refusal, RefPair.predicted]
  by_cases hr : r.isCompound
  · rw [if_pos hr, if_pos hr, if_pos hr]
    by_cases hwhich : which ≤ 1
    · rw [require_of (Nat.le_one_iff_eq_zero_or_eq_one.mp hwhich), ok_bind, if_pos hwhich]
      cases s.candidates[rank]? <;> rfl
    · rw [require_of_not (mt Nat.le_one_iff_eq_zero_or_eq_one.mpr hwhich), error_bind,
        if_neg hwhich]
      rfl
  · rw [if_neg hr, if_neg hr, if_neg hr]
    by_cases hwhich : which = 0
    · rw [require_of hwhich, ok_bind, if_pos hwhich, hwhich]
      cases s.candidates[rank]? <;> rfl
    · rw [require_of_not hwhich, error_bind, if_neg hwhich]
      rfl

theorem blockVector_of_stack (hs : p.stack b.refs = .ok s) : p.blockVector b which =
    (b.refusal which).elim (.ok (b.refs.predicted which b.place s)) .error := by
  rw [blockVector, Block.rank_eq, Block.refusal]
  cases b.placeRefusal with
  | some f => rfl
  | none => exact vectorAt_eq hs

theorem Mirrors.blockVector_eq (h : p.Mirrors actions) (hb : b.refs.Usable) (which : ℕ) :
    p.blockVector b which = (b.refusal which).elim
      (.ok (b.refs.predicted which b.place (gathered actions b.refs.set))) .error :=
  blockVector_of_stack (h b.refs hb)

theorem exists_ne_vector (v : MotionVector) : ∃ u, u ≠ v := by
  by_cases hv : v = .zero
  · rw [hv]
    exact ⟨⟨1, 0⟩, by decide⟩
  · exact ⟨.zero, Ne.symm hv⟩

theorem Mirrors.shows_of_set_eq (h : p.Mirrors actions) (hr : r.Usable) (hr' : r'.Usable)
    (hset : r.set = r'.set) : p.Shows r r' := by
  let b : Block := ⟨.new, r', 0⟩
  have hrefusal : b.refusal 0 = none := by
    show r'.refusal 0 = none
    rw [RefPair.refusal]
    split <;> rfl
  obtain ⟨mv, hmv⟩ := exists_ne_vector (r'.predicted 0 0 (gathered actions r'.set))
  -- Clearing first gives the new candidate rank zero, whatever the stack holds.
  have hrefs : ∀ a ∈ [Action.clear r, .push r ⟨mv, mv, 0⟩], a.refs = r := by
    intro a ha
    rw [List.mem_pair] at ha
    obtain rfl | rfl := ha <;> rfl
  obtain ⟨p', hrun, h'⟩ := h.run fun a ha => (hrefs a ha).symm ▸ hr
  refine ⟨_, p', b, 0, hrefs, hrun, rfl, ?_⟩
  have hgathered : gathered (actions ++ [.clear r, .push r ⟨mv, mv, 0⟩]) r'.set =
      (gathered actions r'.set).clear.push ⟨mv, mv, 0⟩ := by
    rw [List.append_cons, gathered_snoc_of_eq (a := .push r ⟨mv, mv, 0⟩) hset,
      gathered_snoc_of_eq (a := .clear r) hset]
    rfl
  rw [h.blockVector_eq hr', h'.blockVector_eq hr', hrefusal, hgathered]
  intro hread
  exact hmv (Except.ok.inj hread)

theorem Mirrors.set_eq_of_shows (h : p.Mirrors actions) (hr : r.Usable) (hr' : r'.Usable)
    (hshows : p.Shows r r') : r.set = r'.set := by
  obtain ⟨updates, p', b, which, hrefs, hrun, rfl, hread⟩ := hshows
  obtain ⟨p₁, hrun', h'⟩ := h.run fun a ha => (hrefs a ha).symm ▸ hr
  cases hrun.symm.trans hrun'
  by_contra hset
  apply hread
  rw [h'.blockVector_eq hr', h.blockVector_eq hr', gathered_append_of_ne]
  intro a ha
  rwa [hrefs a ha]

/-- Reads follow the updates of the same references, through either of their pairs, and no other
updates. -/
theorem reads_follow_history (hactions : ∀ a ∈ actions, a.refs.Usable) :
    ∃ p, actions.foldlM perform empty = .ok p ∧
      (∀ b which, b.refs.Usable → p.blockVector b which = (b.refusal which).elim
        (.ok (b.refs.predicted which b.place (gathered actions b.refs.set))) .error) ∧
      ∀ r r' : RefPair, r.Usable → r'.Usable → (p.Shows r r' ↔
        r = r' ∨ (r.IsSingle ∧ r'.IsSingle ∧ r.first = r'.first)) := by
  obtain ⟨p, hrun, h⟩ := mirrors_empty.run hactions
  refine ⟨p, hrun, ?_, ?_⟩
  · intro b which hb
    exact h.blockVector_eq hb which
  · intro r r' hr hr'
    rw [← hr.set_eq_iff hr']
    exact ⟨h.set_eq_of_shows hr hr', h.shows_of_set_eq hr hr'⟩

theorem reads_follow_history_mixed : ∃ p,
    [.push ⟨.last, .absent⟩ ⟨⟨8, 8⟩, .zero, 2⟩, .setGlobal ⟨.last, .intra⟩ ⟨-24, 16⟩,
      .push ⟨.last, .altref⟩ ⟨⟨1, 2⟩, ⟨3, 4⟩, 2⟩, .push ⟨.last, .altref⟩ ⟨⟨5, 6⟩, ⟨7, 8⟩, 2⟩,
      .clear ⟨.last, .intra⟩].foldlM perform empty = .ok p ∧
    p.blockVector ⟨.nearest, ⟨.last, .absent⟩, 0⟩ 0 = .ok ⟨-24, 16⟩ ∧
    p.blockVector ⟨.nearNew, ⟨.last, .altref⟩, 0⟩ 1 = .ok ⟨7, 8⟩ ∧
    p.blockVector ⟨.nearNew, ⟨.last, .absent⟩, 0⟩ 1 = .error (.broken .compoundBlock) ∧
    p.Shows ⟨.last, .absent⟩ ⟨.last, .intra⟩ ∧ ¬p.Shows ⟨.last, .absent⟩ ⟨.last, .altref⟩ := by
  have hactions : ∀ a ∈ [Action.push ⟨.last, .absent⟩ ⟨⟨8, 8⟩, .zero, 2⟩,
      .setGlobal ⟨.last, .intra⟩ ⟨-24, 16⟩, .push ⟨.last, .altref⟩ ⟨⟨1, 2⟩, ⟨3, 4⟩, 2⟩,
      .push ⟨.last, .altref⟩ ⟨⟨5, 6⟩, ⟨7, 8⟩, 2⟩, .clear ⟨.last, .intra⟩], a.refs.Usable := by
    decide
  obtain ⟨p, hrun, hread, hshows⟩ := reads_follow_history hactions
  refine ⟨p, hrun, ?_, ?_, ?_, ?_, ?_⟩
  · rw [hread _ _ (by decide)]
    decide
  · rw [hread _ _ (by decide)]
    decide
  · rw [hread _ _ (by decide)]
    decide
  · exact (hshows _ _ (by decide) (by decide)).mpr (by decide)
  · exact (hshows _ _ (by decide) (by decide)).not.mpr (by decide)

end Predictor

end MotionEntropy
