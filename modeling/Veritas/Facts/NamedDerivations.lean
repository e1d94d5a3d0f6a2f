import Veritas.Facts.RowIndexing

/-! Interned ids stand for their keys: the fold over witness edges, read over keys. -/
namespace Veritas

open List hiding map

open Hypergraph Relaxation StatusOr Veritas.Derivation

variable {ordinal : ℕ}

section Map

variable {ρ ρ' lbl lbl' : Type}

def Derivation.map (f : ρ → ρ') (g : lbl → lbl') (d : Derivation ρ lbl) : Derivation ρ' lbl' :=
  ⟨f d.result, g d.rule, g d.derivation, d.spec, d.inputs.map (Prod.map id f)⟩

theorem Derivation.edge_map (f : ρ → ρ') (g : lbl → lbl') (d : Derivation ρ lbl) :
    (d.map f g).edge = d.edge.map f := by
  simp [map, edge, Edge.map]

theorem checkArity_map (f : ρ → ρ') (g : lbl → lbl') (d : Derivation ρ lbl) :
    checkArity (d.map f g) = checkArity d := by
  have hfst : (d.inputs.map (Prod.map id f)).map (·.1) = d.inputs.map (·.1) := by simp
  unfold checkArity map
  rw [hfst, length_map]

theorem mapM_map {α β γ δ : Type} {f : α → β} {h : α → StatusOr γ} {h' : β → StatusOr δ}
    {k : γ → δ} {l : List α} (heq : ∀ a ∈ l, h' (f a) = k <$> h a) :
    (l.map f).mapM h' = List.map k <$> l.mapM h := by
  induction l with
  | nil => rfl
  | cons a l ih =>
    rw [map_cons, mapM_cons, mapM_cons, heq a mem_cons_self,
      ih fun b hb => heq b (mem_cons_of_mem _ hb)]
    cases h a with
    | error e => rfl
    | ok c =>
      cases l.mapM h with
      | error e => rfl
      | ok cs => rfl

variable [DecidableEq ρ] [DecidableEq ρ'] {f : ρ → ρ'} {rows : Set ρ}

theorem bindInput_map (hf : rows.InjOn f) {inputs : List (ℕ × ρ)} {x : ρ}
    (hinputs : ∀ p ∈ inputs, p.2 ∈ rows) (hx : x ∈ rows) :
    bindInput (inputs.map (Prod.map id f)) ordinal (f x) =
      List.map (Prod.map id f) <$> bindInput inputs ordinal x := by
  unfold bindInput
  rw [find?_map]
  have hcomp : ((fun p : ℕ × ρ' => decide (p.1 = ordinal)) ∘ Prod.map id f) =
      fun p : ℕ × ρ => decide (p.1 = ordinal) := rfl
  rw [hcomp]
  cases hfind : inputs.find? fun p => decide (p.1 = ordinal) with
  | none =>
    have htake : (inputs.map (Prod.map id f)).takeWhile (fun p => decide ¬ p.1 > ordinal) =
        (inputs.takeWhile fun p => decide ¬ p.1 > ordinal).map (Prod.map id f) := by
      rw [takeWhile_map]
      rfl
    have hdrop : (inputs.map (Prod.map id f)).dropWhile (fun p => decide ¬ p.1 > ordinal) =
        (inputs.dropWhile fun p => decide ¬ p.1 > ordinal).map (Prod.map id f) := by
      rw [dropWhile_map]
      rfl
    simp only [Option.map_none, htake, hdrop]
    simp [Functor.map, Except.map]
  | some slot =>
    have hslot := hinputs slot (mem_of_find?_eq_some hfind)
    have hiff : f slot.2 = f x ↔ slot.2 = x := hf.eq_iff hslot hx
    simp only [Option.map_some, Prod.map_snd, ne_eq, hiff]
    split_ifs <;> rfl

variable [DecidableEq lbl] [DecidableEq lbl'] {g : lbl → lbl'} {labels : Set lbl}

/-- All rows and labels a derivation mentions are in these sets. -/
structure Derivation.Within (d : Derivation ρ lbl) (rows : Set ρ) (labels : Set lbl) : Prop where
  result : d.result ∈ rows
  rule : d.rule ∈ labels
  derivation : d.derivation ∈ labels
  inputs : ∀ p ∈ d.inputs, p.2 ∈ rows

omit [DecidableEq ρ] [DecidableEq ρ'] [DecidableEq lbl] [DecidableEq lbl'] in
theorem Derivation.key_map_iff (hf : rows.InjOn f) (hg : labels.InjOn g) {d d' : Derivation ρ lbl}
    (hd : d.Within rows labels) (hd' : d'.Within rows labels) :
    (d.map f g).key = (d'.map f g).key ↔ d.key = d'.key := by
  simp only [key, map, Prod.mk.injEq, hf.eq_iff hd.result hd'.result,
    hg.eq_iff hd.rule hd'.rule, hg.eq_iff hd.derivation hd'.derivation]

/-- Folding in one edge does not depend on what rows and labels are called. -/
theorem bindDerivation_map (hf : rows.InjOn f) (hg : labels.InjOn g) {ds : List (Derivation ρ lbl)}
    {fresh : Derivation ρ lbl} {x : ρ} (hds : ∀ d ∈ ds, d.Within rows labels)
    (hfresh : fresh.Within rows labels) (hx : x ∈ rows) :
    bindDerivation (ds.map (map f g)) (fresh.map f g) ordinal (f x) =
      List.map (map f g) <$> bindDerivation ds fresh ordinal x := by
  have hmem : (fresh.map f g).key ∈ (ds.map (map f g)).map (·.key) ↔
      fresh.key ∈ ds.map (·.key) := by
    simp only [mem_map, exists_exists_and_eq_and]
    refine exists_congr fun d => and_congr_right fun hd => ?_
    exact key_map_iff hf hg (hds d hd) hfresh
  unfold bindDerivation
  have hif : (if (fresh.map f g).key ∈ (ds.map (map f g)).map (·.key) then
      ds.map (map f g) else ds.map (map f g) ++ [fresh.map f g]) =
      (if fresh.key ∈ ds.map (·.key) then ds else ds ++ [fresh]).map (map f g) := by
    by_cases h : fresh.key ∈ ds.map (·.key)
    · rw [if_pos h, if_pos (hmem.mpr h)]
    · rw [if_neg h, if_neg (mt hmem.mp h), map_append, map_singleton]
  rw [hif]
  refine mapM_map fun d hd => ?_
  have hwithin : d.Within rows labels := by
    split_ifs at hd with h
    · exact hds d hd
    · rcases mem_append.mp hd with hd | hd
      · exact hds d hd
      · rw [mem_singleton.mp hd]
        exact hfresh
  have hkey := key_map_iff hf hg hwithin hfresh
  by_cases h : d.key = fresh.key
  · rw [if_pos h, if_pos (hkey.mpr h)]
    have hbind : bindInput (d.inputs.map (Prod.map id f)) ordinal (f x) =
        List.map (Prod.map id f) <$> bindInput d.inputs ordinal x :=
      bindInput_map hf hwithin.inputs hx
    change (bindInput (d.inputs.map (Prod.map id f)) ordinal (f x) >>= _) = _
    rw [hbind]
    cases bindInput d.inputs ordinal x with
    | error e => rfl
    | ok inputs => rfl
  · rw [if_neg h, if_neg (mt hkey.mp h)]
    rfl

end Map

section Bound

variable {ρ lbl : Type} [DecidableEq ρ] [DecidableEq lbl]

theorem mem_of_bindInput {inputs inputs' : List (ℕ × ρ)} {x : ρ}
    (h : bindInput inputs ordinal x = .ok inputs') {p : ℕ × ρ} :
    p ∈ inputs' ↔ p ∈ inputs ∨ p = (ordinal, x) := by
  unfold bindInput at h
  split at h
  · rename_i slot hslot
    split_ifs at h with hne
    obtain rfl := Except.ok.inj h
    obtain ⟨hmem, hord⟩ := Ordered.of_find? hslot
    have heq : slot = (ordinal, x) := Prod.ext hord (not_not.mp hne)
    constructor
    · exact .inl
    · rintro (hp | rfl)
      · exact hp
      · rwa [← heq]
  · obtain rfl := Except.ok.inj h
    have hsplit := takeWhile_append_dropWhile
      (p := fun q : ℕ × ρ => decide ¬ q.1 > ordinal) (l := inputs)
    rw [mem_append, mem_cons]
    conv_rhs => rw [← hsplit, mem_append]
    tauto

/-- Where the entries of a fold come from. -/
theorem mem_of_bindDerivation {ds ds' : List (Derivation ρ lbl)} {fresh : Derivation ρ lbl} {x : ρ}
    (h : bindDerivation ds fresh ordinal x = .ok ds') {d' : Derivation ρ lbl} (hd' : d' ∈ ds') :
    ∃ d, (d ∈ ds ∨ d = fresh) ∧ d'.key = d.key ∧ d'.spec = d.spec ∧
      ∀ p ∈ d'.inputs, p ∈ d.inputs ∨ p = (ordinal, x) := by
  obtain ⟨d, hd, hstep⟩ := (mem_of_mapM h).mp hd'
  refine ⟨d, ?_, ?_⟩
  · split_ifs at hd with hmem
    · exact .inl hd
    · simpa using hd
  · split_ifs at hstep with hkey
    · obtain ⟨inputs', hbind, hpure⟩ := bind_eq_ok.mp hstep
      obtain rfl := pure_eq_ok.mp hpure
      exact ⟨rfl, rfl, fun p hp => (mem_of_bindInput hbind).mp hp⟩
    · obtain rfl := pure_eq_ok.mp hstep
      exact ⟨rfl, rfl, fun p hp => .inl hp⟩

theorem Derivation.Within.bind {rows : Set ρ} {labels : Set lbl} {ds ds' : List (Derivation ρ lbl)}
    {fresh : Derivation ρ lbl} {x : ρ} (hds : ∀ d ∈ ds, d.Within rows labels)
    (hfresh : fresh.Within rows labels) (hx : x ∈ rows)
    (h : bindDerivation ds fresh ordinal x = .ok ds') : ∀ d ∈ ds', d.Within rows labels := by
  intro d' hd'
  obtain ⟨d, hd, hkey, -, hinputs⟩ := mem_of_bindDerivation h hd'
  have hwithin : d.Within rows labels := by
    rcases hd with hd | rfl
    · exact hds d hd
    · exact hfresh
  obtain ⟨hresult, hrule, hderivation⟩ : d'.result = d.result ∧ d'.rule = d.rule ∧
      d'.derivation = d.derivation := by simpa [key] using hkey
  refine ⟨hresult ▸ hwithin.result, hrule ▸ hwithin.rule, hderivation ▸ hwithin.derivation, ?_⟩
  intro p hp
  rcases hinputs p hp with hp | rfl
  · exact hwithin.inputs p hp
  · exact hx

end Bound

/-- What an id was handed out for. -/
def nameOf (t : Interner String) (id : ℕ) : String := t.keys.getD id ""

/-- The ids handed out. -/
def idsOf (t : Interner String) : Set ℕ := {id | id < t.keys.length}

variable {k : String} {t : Interner String} {ds : List (Derivation String String)}
  {edge : WitnessEdge} {id : ℕ}

theorem nameOf_eq (h : t.Names id k) : nameOf t id = k := by
  rw [nameOf, getD_eq_getElem?_getD, h, Option.getD_some]

theorem names_nameOf (h : id ∈ idsOf t) : t.Names id (nameOf t id) := by
  have hget : t.keys[id]? = some t.keys[id] := getElem?_eq_getElem h
  rw [nameOf_eq hget]
  exact hget

theorem mem_idsOf (h : t.Names id k) : id ∈ idsOf t := by
  obtain ⟨hlt, -⟩ := List.getElem?_eq_some_iff.mp h
  exact hlt

theorem nameOf_injOn (t : Interner String) : (idsOf t).InjOn (nameOf t) := by
  intro i hi j hj heq
  have hi := names_nameOf hi
  rw [heq] at hi
  exact hi.inj (names_nameOf hj)

/-- One edge folded in, with keys for ids. -/
def addNamedEdge (roots results : List SemanticRow) (ds : List (Derivation String String))
    (edge : WitnessEdge) : StatusOr (List (Derivation String String)) := do
  if encodeSemanticKey edge.result ∉ results.map encodeSemanticKey then
    throw (.invalidArgument "witness names a result that was not published")
  let rule ← derivingRule edge
  validateSemanticRow edge.input
  if encodeSemanticKey edge.input ∉ (roots ++ results).map encodeSemanticKey then
    throw (.invalidArgument "witness cites an input that is neither a root nor a result")
  bindDerivation ds ⟨encodeSemanticKey edge.result, edge.ruleId, edge.derivationKey, rule, []⟩
    edge.inputOrdinal (encodeSemanticKey edge.input)

theorem addNamedEdge_eq_ok {roots results : List SemanticRow}
    {ds' : List (Derivation String String)} :
    addNamedEdge roots results ds edge = .ok ds' ↔
      encodeSemanticKey edge.result ∈ results.map encodeSemanticKey ∧
        ∃ rule, derivingRule edge = .ok rule ∧ validateSemanticRow edge.input = .ok () ∧
          encodeSemanticKey edge.input ∈ (roots ++ results).map encodeSemanticKey ∧
            bindDerivation ds ⟨encodeSemanticKey edge.result, edge.ruleId, edge.derivationKey,
              rule, []⟩ edge.inputOrdinal (encodeSemanticKey edge.input) = .ok ds' := by
  unfold addNamedEdge
  rw [guard_eq_ok, not_not]
  refine and_congr_right fun _ => ?_
  rw [bind_eq_ok]
  refine exists_congr fun rule => and_congr_right fun _ => ?_
  rw [bind_unit_eq_ok, guard_eq_ok, not_not]

/-- A key looked up, with a test on its id. -/
theorem find_guard_eq_ok {p : ℕ → Prop} [DecidablePred p] {s s' : Status} :
    (match t.find k with
      | some id => if p id then .ok id else .error s
      | none => .error s' : StatusOr ℕ) = .ok id ↔ t.Names id k ∧ p id := by
  cases hfind : t.find k with
  | none =>
    have hnot := Interner.find_eq_none.mp hfind
    refine ⟨fun h => by simp at h, fun h => ?_⟩
    exact absurd h.1.mem hnot
  | some id' =>
    have hnames := Interner.find_eq_some.mp hfind
    dsimp only
    split_ifs with h
    · rw [Except.ok.injEq]
      constructor
      · rintro rfl
        exact ⟨hnames, h⟩
      · exact fun h' => hnames.inj h'.1
    · refine ⟨fun h' => by simp at h', fun h' => ?_⟩
      rw [hnames.inj h'.1] at h
      exact absurd h'.2 h

variable {acc : DerivationFold}

section Folds

variable {ix : RowIndex}

/-- The fold over ids holds the derivations of the fold over keys. -/
structure Folds (ix : RowIndex) (acc : DerivationFold) (ds : List (Derivation String String)) :
    Prop where
  within : ∀ d ∈ acc.derivations, d.Within (idsOf ix.rows) (idsOf acc.labels)
  named : acc.derivations.map (map (nameOf ix.rows) (nameOf acc.labels)) = ds

/-- What one more edge does, over ids. -/
theorem addEdge_eq_ok {acc' : DerivationFold} :
    addEdge ix acc edge = .ok acc' ↔ ∃ result rule input derivations,
      ix.publishedResult edge.result = .ok result ∧ derivingRule edge = .ok rule ∧
        validateSemanticRow edge.input = .ok () ∧ ix.citedInput edge.input = .ok input ∧
          bindDerivation acc.derivations ⟨result, (acc.labels.intern edge.ruleId).2,
            ((acc.labels.intern edge.ruleId).1.intern edge.derivationKey).2, rule, []⟩
              edge.inputOrdinal input = .ok derivations ∧
            acc' = ⟨((acc.labels.intern edge.ruleId).1.intern edge.derivationKey).1,
              derivations⟩ := by
  unfold addEdge
  simp only [bind_eq_ok, pure_eq_ok]
  constructor
  · rintro ⟨result, hresult, rule, hrule, ⟨⟩, hvalid, input, hinput, ds, hds, rfl⟩
    exact ⟨result, rule, input, ds, hresult, hrule, hvalid, hinput, hds, rfl⟩
  · rintro ⟨result, rule, input, ds, hresult, hrule, hvalid, hinput, hds, rfl⟩
    exact ⟨result, hresult, rule, hrule, (), hvalid, input, hinput, ds, hds, rfl⟩

/-- Labels keep their names while the fold interns more of them. -/
theorem Folds.relabel (h : Folds ix acc ds) {labels : Interner String}
    (hgrow : ∀ i k, acc.labels.Names i k → labels.Names i k) :
    (∀ d ∈ acc.derivations, d.Within (idsOf ix.rows) (idsOf labels)) ∧
      acc.derivations.map (map (nameOf ix.rows) (nameOf labels)) = ds := by
  have hids : ∀ i ∈ idsOf acc.labels, i ∈ idsOf labels ∧ nameOf labels i = nameOf acc.labels i := by
    intro i hi
    have hnames := hgrow i _ (names_nameOf hi)
    exact ⟨mem_idsOf hnames, nameOf_eq hnames⟩
  constructor
  · intro d hd
    have hw := h.within d hd
    exact ⟨hw.result, (hids _ hw.rule).1, (hids _ hw.derivation).1, hw.inputs⟩
  · rw [← h.named]
    refine map_congr_left fun d hd => ?_
    have hw := h.within d hd
    simp only [map, (hids _ hw.rule).2, (hids _ hw.derivation).2]

/-- One binding step, on ids that stand for these keys. -/
theorem bindDerivation_named {rows labels : Interner String} {derivations : List (Derivation ℕ ℕ)}
    {fresh : Derivation ℕ ℕ} {input : ℕ}
    (hwithin : ∀ d ∈ derivations, d.Within (idsOf rows) (idsOf labels))
    (hfresh : fresh.Within (idsOf rows) (idsOf labels)) (hinput : rows.Names input k) (ordinal : ℕ) :
    bindDerivation (derivations.map (map (nameOf rows) (nameOf labels)))
        (fresh.map (nameOf rows) (nameOf labels)) ordinal k =
      List.map (map (nameOf rows) (nameOf labels)) <$>
        bindDerivation derivations fresh ordinal input := by
  rw [← nameOf_eq hinput]
  exact bindDerivation_map (nameOf_injOn rows) (nameOf_injOn labels) hwithin hfresh
    (mem_idsOf hinput)

end Folds

section Simulation

variable {ix : RowIndex} {roots results : List SemanticRow} (hix : Indexes ix roots results)

include hix

theorem Indexes.result_isSome : (ix.resultRows id).isSome ↔
    ∃ k ∈ results.map encodeSemanticKey, ix.rows.Names id k := by
  simp only [Option.isSome_iff_exists, hix.result, mem_map, exists_exists_and_eq_and]

theorem Indexes.root_isSome : (ix.rootRows id).isSome ↔
    ∃ k ∈ roots.map encodeSemanticKey, ix.rows.Names id k := by
  simp only [Option.isSome_iff_exists, hix.root, mem_map, exists_exists_and_eq_and]

variable {row : SemanticRow}

theorem publishedResult_eq_ok :
    ix.publishedResult row = .ok id ↔
      encodeSemanticKey row ∈ results.map encodeSemanticKey ∧
        ix.rows.Names id (encodeSemanticKey row) := by
  refine (find_guard_eq_ok (p := fun id => (ix.resultRows id).isSome)).trans ?_
  rw [and_comm, hix.result_isSome]
  refine and_congr_left fun hnames => ⟨?_, fun h => ⟨_, h, hnames⟩⟩
  rintro ⟨k, hk, hk'⟩
  rwa [hnames.unique hk']

theorem citedInput_eq_ok :
    ix.citedInput row = .ok id ↔
      encodeSemanticKey row ∈ (roots ++ results).map encodeSemanticKey ∧
        ix.rows.Names id (encodeSemanticKey row) := by
  refine (find_guard_eq_ok
    (p := fun id => (ix.rootRows id).isSome ∨ (ix.resultRows id).isSome)).trans ?_
  rw [and_comm, hix.root_isSome, hix.result_isSome, map_append, mem_append]
  refine and_congr_left fun hnames => ⟨?_, ?_⟩
  · rintro (⟨k, hk, hk'⟩ | ⟨k, hk, hk'⟩)
    · rw [hnames.unique hk']
      exact .inl hk
    · rw [hnames.unique hk']
      exact .inr hk
  · rintro (h | h)
    · exact .inl ⟨_, h, hnames⟩
    · exact .inr ⟨_, h, hnames⟩

theorem addEdge_sim (h : Folds ix acc ds) (edge : WitnessEdge) :
    (∀ acc', addEdge ix acc edge = .ok acc' →
      ∃ ds', addNamedEdge roots results ds edge = .ok ds' ∧ Folds ix acc' ds') ∧
      ∀ ds', addNamedEdge roots results ds edge = .ok ds' →
        ∃ acc', addEdge ix acc edge = .ok acc' ∧ Folds ix acc' ds' := by
  simp only [addEdge_eq_ok, addNamedEdge_eq_ok, publishedResult_eq_ok hix, citedInput_eq_ok hix]
  obtain ⟨hrule, hold, -⟩ := acc.labels.intern_names edge.ruleId
  obtain ⟨hder, hold', -⟩ := (acc.labels.intern edge.ruleId).1.intern_names edge.derivationKey
  replace hrule := hold' _ _ hrule
  generalize (acc.labels.intern edge.ruleId).2 = rule at *
  generalize ((acc.labels.intern edge.ruleId).1.intern edge.derivationKey).2 = derivation at *
  generalize ((acc.labels.intern edge.ruleId).1.intern edge.derivationKey).1 = labels at *
  obtain ⟨hwithin, hnamed⟩ := h.relabel fun i k hi => hold' i k (hold i k hi)
  have hbind : ∀ {result input : ℕ} (spec : RuleSpec),
      ix.rows.Names result (encodeSemanticKey edge.result) →
      ix.rows.Names input (encodeSemanticKey edge.input) →
      (⟨result, rule, derivation, spec, []⟩ : Derivation ℕ ℕ).Within (idsOf ix.rows)
          (idsOf labels) ∧
        bindDerivation ds ⟨encodeSemanticKey edge.result, edge.ruleId, edge.derivationKey, spec,
          []⟩ edge.inputOrdinal (encodeSemanticKey edge.input) =
          List.map (map (nameOf ix.rows) (nameOf labels)) <$>
            bindDerivation acc.derivations ⟨result, rule, derivation, spec, []⟩
              edge.inputOrdinal input := by
    intro result input spec hresult hinput
    have hfresh : (⟨result, rule, derivation, spec, []⟩ : Derivation ℕ ℕ).Within
        (idsOf ix.rows) (idsOf labels) :=
      ⟨mem_idsOf hresult, mem_idsOf hrule, mem_idsOf hder, by simp⟩
    refine ⟨hfresh, ?_⟩
    rw [← bindDerivation_named hwithin hfresh hinput, hnamed]
    simp only [map, nameOf_eq hresult, nameOf_eq hrule, nameOf_eq hder, map_nil]
  constructor
  · rintro acc' ⟨result, spec, input, derivations, ⟨hpub, hresult⟩, hspec, hvalid,
      ⟨hcited, hinput⟩, hds, rfl⟩
    obtain ⟨hfresh, heq⟩ := hbind spec hresult hinput
    rw [hds] at heq
    exact ⟨_, ⟨hpub, spec, hspec, hvalid, hcited, heq⟩,
      Within.bind hwithin hfresh (mem_idsOf hinput) hds, rfl⟩
  · rintro ds' ⟨hpub, spec, hspec, hvalid, hcited, hds⟩
    have hresult := Interner.names_of_mem ((hix.keys _).mpr (map_append ▸ mem_append_right _ hpub))
    have hinput := Interner.names_of_mem ((hix.keys _).mpr hcited)
    obtain ⟨hfresh, heq⟩ := hbind spec hresult hinput
    rw [heq] at hds
    obtain ⟨derivations, hderivations, rfl⟩ := map_eq_ok.mp hds
    exact ⟨_, ⟨_, spec, _, derivations, ⟨hpub, hresult⟩, hspec, hvalid, ⟨hcited, hinput⟩,
      hderivations, rfl⟩, Within.bind hwithin hfresh (mem_idsOf hinput) hderivations,
      rfl⟩

theorem foldEdges_sim (edges : List WitnessEdge) (h : Folds ix acc ds) :
    (∀ acc', edges.foldlM (addEdge ix) acc = .ok acc' →
      ∃ ds', edges.foldlM (addNamedEdge roots results) ds = .ok ds' ∧ Folds ix acc' ds') ∧
      ∀ ds', edges.foldlM (addNamedEdge roots results) ds = .ok ds' →
        ∃ acc', edges.foldlM (addEdge ix) acc = .ok acc' ∧ Folds ix acc' ds' := by
  induction edges generalizing acc ds with
  | nil =>
    simp only [foldlM_nil, pure_eq_ok]
    exact ⟨fun acc' heq => ⟨ds, rfl, heq ▸ h⟩, fun ds' heq => ⟨acc, rfl, heq ▸ h⟩⟩
  | cons edge edges ih =>
    simp only [foldlM_cons, bind_eq_ok]
    obtain ⟨hto, hfrom⟩ := addEdge_sim hix h edge
    constructor
    · rintro acc' ⟨mid, hmid, hacc'⟩
      obtain ⟨ds₁, hds₁, hfolds⟩ := hto mid hmid
      obtain ⟨ds', hds', hfolds'⟩ := (ih hfolds).1 acc' hacc'
      exact ⟨ds', ⟨ds₁, hds₁, hds'⟩, hfolds'⟩
    · rintro ds' ⟨mid, hmid, hds'⟩
      obtain ⟨acc₁, hacc₁, hfolds⟩ := hfrom mid hmid
      obtain ⟨acc', hacc', hfolds'⟩ := (ih hfolds).2 ds' hds'
      exact ⟨acc', ⟨acc₁, hacc₁, hacc'⟩, hfolds'⟩

end Simulation

end Veritas
