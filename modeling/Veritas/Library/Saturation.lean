import Mathlib.Data.Finset.Card
import Mathlib.Order.Bounds.Basic

/-! Round-based saturation of a finite rule system, with a log of the firings that were kept. -/
namespace Saturation

open List

/-- One rule application: its conclusion, the derived facts it joins, and what it records. -/
structure Firing (τ ω : Type*) where
  conclusion : τ
  premises : List τ
  evidence : ω

/-- What a set of firings proves: the smallest set closed under them. -/
inductive Derivable {τ ω : Type*} (rules : Set (Firing τ ω)) : τ → Prop
  | fire {f : Firing τ ω} (hf : f ∈ rules) (hp : ∀ p ∈ f.premises, Derivable rules p) :
      Derivable rules f.conclusion

/-- A set of facts that every firing with premises in it stays inside. -/
def Closed {τ ω : Type*} (rules : Set (Firing τ ω)) (facts : Set τ) : Prop :=
  ∀ f ∈ rules, (∀ p ∈ f.premises, p ∈ facts) → f.conclusion ∈ facts

section Derivable

variable {τ ω : Type*} {rules rules' : Set (Firing τ ω)}

theorem Derivable.mono (h : rules ⊆ rules') {t : τ} (ht : Derivable rules t) :
    Derivable rules' t := by
  induction ht with
  | fire hf _ ih => exact .fire (h hf) ih

theorem derivable_isLeast : IsLeast {s | Closed rules s} {t | Derivable rules t} := by
  constructor
  · intro f hf hp
    exact .fire hf hp
  · intro s hs t ht
    induction ht with
    | fire hf _ ih => exact hs _ hf ih

end Derivable

/-- Whether every firing is logged, or only the first for each conclusion. -/
inductive Keep
  | first | every
  deriving DecidableEq

structure Progress (τ ω : Type*) where
  derived : Finset τ
  log : List (Firing τ ω)
  changed : Bool

section Absorb

variable {τ ω : Type*} [DecidableEq τ] {keep : Keep} {p : Progress τ ω} {f : Firing τ ω}
  {fs : List (Firing τ ω)}

/-- Take one firing into account; a new conclusion sets the flag. -/
def absorb (keep : Keep) (p : Progress τ ω) (f : Firing τ ω) : Progress τ ω :=
  if f.conclusion ∈ p.derived then
    match keep with
    | .first => p
    | .every => { p with log := p.log ++ [f] }
  else ⟨insert f.conclusion p.derived, p.log ++ [f], true⟩

def absorbList (keep : Keep) (p : Progress τ ω) (fs : List (Firing τ ω)) : Progress τ ω :=
  fs.foldl (absorb keep) p

theorem absorb_cases (keep : Keep) (p : Progress τ ω) (f : Firing τ ω) :
    (f.conclusion ∈ p.derived ∧ absorb keep p f = p ∧ keep = .first) ∨
      (f.conclusion ∈ p.derived ∧ absorb keep p f = { p with log := p.log ++ [f] } ∧
        keep = .every) ∨
      (f.conclusion ∉ p.derived ∧
        absorb keep p f = ⟨insert f.conclusion p.derived, p.log ++ [f], true⟩) := by
  by_cases h : f.conclusion ∈ p.derived
  · cases keep <;> simp [absorb, h]
  · simp [absorb, h]

theorem absorb_derived : (absorb keep p f).derived = insert f.conclusion p.derived := by
  obtain ⟨h, he, -⟩ | ⟨h, he, -⟩ | ⟨-, he⟩ := absorb_cases keep p f
  · rw [he, Finset.insert_eq_of_mem h]
  · rw [he, Finset.insert_eq_of_mem h]
  · rw [he]

theorem absorb_changed :
    (absorb keep p f).changed = true ↔ p.changed = true ∨ f.conclusion ∉ p.derived := by
  obtain ⟨h, he, -⟩ | ⟨h, he, -⟩ | ⟨h, he⟩ := absorb_cases keep p f <;> simp [he, h]

@[simp] theorem absorbList_nil : absorbList keep p ([] : List (Firing τ ω)) = p := rfl

@[simp] theorem absorbList_cons :
    absorbList keep p (f :: fs) = absorbList keep (absorb keep p f) fs := rfl

theorem mem_absorbList_derived {t : τ} :
    t ∈ (absorbList keep p fs).derived ↔ t ∈ p.derived ∨ ∃ f ∈ fs, f.conclusion = t := by
  induction fs generalizing p with
  | nil => simp
  | cons f fs ih =>
    rw [absorbList_cons, ih, absorb_derived, Finset.mem_insert, exists_mem_cons_iff]
    constructor
    · rintro ((h | h) | h)
      · exact .inr (.inl h.symm)
      · exact .inl h
      · exact .inr (.inr h)
    · rintro (h | h | h)
      · exact .inl (.inr h)
      · exact .inl (.inl h.symm)
      · exact .inr h

theorem absorbList_changed :
    (absorbList keep p fs).changed = true ↔
      p.changed = true ∨ ∃ f ∈ fs, f.conclusion ∉ p.derived := by
  induction fs generalizing p with
  | nil => simp
  | cons f fs ih =>
    rw [absorbList_cons, ih, absorb_changed, absorb_derived, exists_mem_cons_iff, or_assoc]
    by_cases h : f.conclusion ∈ p.derived
    · simp [h]
    · simp [h]

end Absorb

/-- A rule system that fires on a snapshot and stays inside a finite carrier. -/
structure System (τ ω : Type*) where
  carrier : Finset τ
  fire : Finset τ → List (Firing τ ω)
  fire_mem : ∀ {s : Finset τ}, s ⊆ carrier → ∀ f ∈ fire s, f.conclusion ∈ carrier

/-- The system fires exactly the rules whose premises are in the snapshot. -/
def System.Generates {τ ω : Type*} (S : System τ ω) (rules : Set (Firing τ ω)) : Prop :=
  ∀ s f, f ∈ S.fire s ↔ f ∈ rules ∧ ∀ p ∈ f.premises, p ∈ s

section Run

variable {τ ω : Type*} [DecidableEq τ] {S : System τ ω} {keep : Keep} {p : Progress τ ω}

/-- One pass over everything that fires on the facts derived so far. -/
def System.round (S : System τ ω) (keep : Keep) (p : Progress τ ω) : Progress τ ω :=
  absorbList keep { p with changed := false } (S.fire p.derived)

theorem mem_round_derived {t : τ} :
    t ∈ (S.round keep p).derived ↔ t ∈ p.derived ∨ ∃ f ∈ S.fire p.derived, f.conclusion = t :=
  mem_absorbList_derived

theorem derived_subset_round : p.derived ⊆ (S.round keep p).derived :=
  fun _ ht => mem_round_derived.mpr (.inl ht)

theorem round_subset_carrier (h : p.derived ⊆ S.carrier) :
    (S.round keep p).derived ⊆ S.carrier := by
  intro t ht
  rcases mem_round_derived.mp ht with ht | ⟨f, hf, rfl⟩
  · exact h ht
  · exact S.fire_mem h f hf

theorem round_changed : (S.round keep p).changed = true ↔ ¬ (S.round keep p).derived ⊆ p.derived := by
  rw [System.round, absorbList_changed]
  constructor
  · rintro (h | ⟨f, hf, hnew⟩) hsub
    · exact absurd h Bool.false_ne_true
    · exact hnew (hsub (mem_round_derived.mpr (.inr ⟨f, hf, rfl⟩)))
  · intro h
    obtain ⟨t, ht, hnew⟩ := Finset.not_subset.mp h
    rcases mem_round_derived.mp ht with ht | ⟨f, hf, rfl⟩
    · exact absurd ht hnew
    · exact .inr ⟨f, hf, hnew⟩

/-- Repeat the rounds until one of them finds nothing new. -/
def System.run (S : System τ ω) (keep : Keep) (p : Progress τ ω) (h : p.derived ⊆ S.carrier) :
    Progress τ ω :=
  if (S.round keep p).changed then S.run keep (S.round keep p) (round_subset_carrier h)
  else S.round keep p
termination_by S.carrier.card - p.derived.card
decreasing_by
  rename_i hchanged
  have hgrow : p.derived.card < (S.round keep p).derived.card :=
    Finset.card_lt_card ⟨derived_subset_round, round_changed.mp hchanged⟩
  have hle : (S.round keep p).derived.card ≤ S.carrier.card :=
    Finset.card_le_card (round_subset_carrier h)
  omega

/-- What every round keeps holds when the loop leaves. -/
theorem run_invariant {P : Progress τ ω → Prop} (h : p.derived ⊆ S.carrier)
    (hround : ∀ q, P q → P (S.round keep q)) (hp : P p) : P (S.run keep p h) := by
  induction p, h using System.run.induct S keep with
  | case1 p h hc ih =>
    rw [System.run, if_pos hc]
    exact ih (hround p hp)
  | case2 p h hc =>
    rw [System.run, if_neg hc]
    exact hround p hp

/-- The loop leaves on a round that added nothing. -/
theorem run_last (keep : Keep) (h : p.derived ⊆ S.carrier) :
    ∃ q : Progress τ ω, S.run keep p h = S.round keep q ∧
      (S.round keep q).derived = q.derived ∧ p.derived ⊆ q.derived := by
  induction p, h using System.run.induct S keep with
  | case1 p h hc ih =>
    rw [System.run, if_pos hc]
    obtain ⟨q, hrun, hlast, hsub⟩ := ih
    exact ⟨q, hrun, hlast, derived_subset_round.trans hsub⟩
  | case2 p h hc =>
    rw [System.run, if_neg hc]
    have hsub := not_not.mp (mt round_changed.mpr hc)
    exact ⟨p, rfl, hsub.antisymm derived_subset_round, subset_rfl⟩

/-- Every logged firing is a rule on derived facts, and the log proves what was derived. -/
structure Justified (rules : Set (Firing τ ω)) (p : Progress τ ω) : Prop where
  rule : ∀ f ∈ p.log, f ∈ rules
  premise : ∀ f ∈ p.log, ∀ t ∈ f.premises, t ∈ p.derived
  conclusion : ∀ f ∈ p.log, f.conclusion ∈ p.derived
  proof : ∀ t ∈ p.derived, Derivable {f | f ∈ p.log} t

variable {rules : Set (Firing τ ω)}

theorem Justified.absorb {f : Firing τ ω} (h : Justified rules p) (hf : f ∈ rules)
    (hp : ∀ t ∈ f.premises, t ∈ p.derived) : Justified rules (absorb keep p f) := by
  have hlog : Derivable {g | g ∈ p.log ++ [f]} f.conclusion :=
    .fire (f := f) (by simp) fun t ht => (h.proof t (hp t ht)).mono (by intro g hg; simp_all)
  have hmono : ∀ t ∈ p.derived, Derivable {g | g ∈ p.log ++ [f]} t :=
    fun t ht => (h.proof t ht).mono (by intro g hg; simp_all)
  obtain ⟨-, he, -⟩ | ⟨hc, he, -⟩ | ⟨-, he⟩ := absorb_cases keep p f
  · rwa [he]
  · rw [he]
    refine ⟨?_, ?_, ?_, hmono⟩ <;> intro g hg <;>
      rcases mem_append.mp hg with hg | hg
    · exact h.rule g hg
    · rwa [mem_singleton.mp hg]
    · exact h.premise g hg
    · rwa [mem_singleton.mp hg]
    · exact h.conclusion g hg
    · rwa [mem_singleton.mp hg]
  · rw [he]
    refine ⟨?_, ?_, ?_, ?_⟩
    · intro g hg
      rcases mem_append.mp hg with hg | hg
      · exact h.rule g hg
      · rwa [mem_singleton.mp hg]
    · intro g hg t ht
      rcases mem_append.mp hg with hg | hg
      · exact Finset.mem_insert_of_mem (h.premise g hg t ht)
      · rw [mem_singleton.mp hg] at ht
        exact Finset.mem_insert_of_mem (hp t ht)
    · intro g hg
      rcases mem_append.mp hg with hg | hg
      · exact Finset.mem_insert_of_mem (h.conclusion g hg)
      · rw [mem_singleton.mp hg]
        exact Finset.mem_insert_self _ _
    · intro t ht
      rcases Finset.mem_insert.mp ht with rfl | ht
      · exact hlog
      · exact hmono t ht

theorem Justified.absorbList {fs : List (Firing τ ω)} (h : Justified rules p)
    (hf : ∀ f ∈ fs, f ∈ rules) (hp : ∀ f ∈ fs, ∀ t ∈ f.premises, t ∈ p.derived) :
    Justified rules (absorbList keep p fs) := by
  induction fs generalizing p with
  | nil => exact h
  | cons f fs ih =>
    refine ih (h.absorb (hf f mem_cons_self) (hp f mem_cons_self))
      (fun g hg => hf g (mem_cons_of_mem _ hg)) fun g hg t ht => ?_
    rw [absorb_derived]
    exact Finset.mem_insert_of_mem (hp g (mem_cons_of_mem _ hg) t ht)

theorem Justified.round
    (hfire : ∀ f ∈ S.fire p.derived, f ∈ rules ∧ ∀ t ∈ f.premises, t ∈ p.derived)
    (h : Justified rules p) : Justified rules (S.round keep p) := by
  have hreset : Justified rules { p with changed := false } := ⟨h.1, h.2, h.3, h.4⟩
  exact hreset.absorbList (fun f hf => (hfire f hf).1) fun f hf => (hfire f hf).2

end Run

section Saturate

variable {τ ω : Type*} [DecidableEq τ] {S : System τ ω} {keep : Keep}
  {seeds : List (Firing τ ω)} {rules : Set (Firing τ ω)}

/-- The seeds, of which only the first for each conclusion is logged. -/
def seeded (seeds : List (Firing τ ω)) : Progress τ ω := absorbList .first ⟨∅, [], false⟩ seeds

theorem mem_seeded_derived {t : τ} :
    t ∈ (seeded seeds).derived ↔ ∃ f ∈ seeds, f.conclusion = t := by
  simp [seeded, mem_absorbList_derived]

theorem seeded_subset_carrier (h : ∀ f ∈ seeds, f.conclusion ∈ S.carrier) :
    (seeded seeds).derived ⊆ S.carrier := by
  intro t ht
  obtain ⟨f, hf, rfl⟩ := mem_seeded_derived.mp ht
  exact h f hf

def System.saturate (S : System τ ω) (keep : Keep) (seeds : List (Firing τ ω))
    (h : ∀ f ∈ seeds, f.conclusion ∈ S.carrier) : Progress τ ω :=
  S.run keep (seeded seeds) (seeded_subset_carrier h)

/-- The rules of a whole saturation: seeds without premises, then the rounds' own. -/
def allRules (seeds : List (Firing τ ω)) (rules : Set (Firing τ ω)) : Set (Firing τ ω) :=
  {f | f ∈ seeds} ∪ rules

omit [DecidableEq τ] in
theorem Derivable.seed {f : Firing τ ω} (hf : f ∈ seeds) (hp : f.premises = []) :
    Derivable (allRules seeds rules) f.conclusion :=
  .fire (Set.mem_union_left _ hf) (by simp [hp])

omit [DecidableEq τ] in
theorem Derivable.rule {f : Firing τ ω} (hf : f ∈ rules)
    (hp : ∀ p ∈ f.premises, Derivable (allRules seeds rules) p) :
    Derivable (allRules seeds rules) f.conclusion :=
  .fire (Set.mem_union_right _ hf) hp

theorem seeded_justified (hseeds : ∀ f ∈ seeds, f.premises = []) :
    Justified (allRules seeds rules) (seeded seeds) := by
  refine Justified.absorbList ⟨?_, ?_, ?_, ?_⟩ (fun f hf => .inl hf) fun f hf t ht => ?_
  · simp
  · simp
  · simp
  · simp
  · simp [hseeds f hf] at ht

variable (hgen : S.Generates rules) (hseeds : ∀ f ∈ seeds, f.premises = [])
  (h : ∀ f ∈ seeds, f.conclusion ∈ S.carrier)

include hgen hseeds in
theorem saturate_justified (keep : Keep) :
    Justified (allRules seeds rules) (S.saturate keep seeds h) := by
  refine run_invariant _ (fun q hq => hq.round fun f hf => ?_) (seeded_justified hseeds)
  obtain ⟨hrule, hprem⟩ := (hgen _ f).mp hf
  exact ⟨.inr hrule, hprem⟩

include hgen in
theorem saturate_closed :
    Closed (allRules seeds rules) {t | t ∈ (S.saturate keep seeds h).derived} := by
  obtain ⟨q, hrun, hlast, hsub⟩ := run_last keep (seeded_subset_carrier h)
  intro f hf hp
  rw [Set.mem_ofPred_eq, System.saturate, hrun]
  rcases hf with hf | hf
  · exact derived_subset_round (hsub (mem_seeded_derived.mpr ⟨f, hf, rfl⟩))
  · refine mem_round_derived.mpr (.inr ⟨f, (hgen _ f).mpr ⟨hf, fun t ht => ?_⟩, rfl⟩)
    have hmem := hp t ht
    rwa [Set.mem_ofPred_eq, System.saturate, hrun, hlast] at hmem

include hgen hseeds in
/-- Saturation derives the smallest set closed under the seeds and the rules. -/
theorem mem_saturate_derived {t : τ} :
    t ∈ (S.saturate keep seeds h).derived ↔ Derivable (allRules seeds rules) t := by
  have hjust := saturate_justified hgen hseeds h keep
  constructor
  · intro ht
    exact (hjust.proof t ht).mono hjust.rule
  · intro ht
    exact derivable_isLeast.2 (saturate_closed hgen h) ht

end Saturate

end Saturation
