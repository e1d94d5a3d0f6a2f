import Veritas.Facts.AnalysisFactBus
import Veritas.Library.Interner

/-! `MakeAnalysisFactBatch`: the completed components of a run merged into one batch. -/
namespace Veritas

open List

/-- The part of a run's result that reaches the batch. -/
structure WpaRunResult where
  run : AnalysisRunManifest
  expectedComponents : List WpaComponentKey
  completedComponents : List WpaComponentCompletion
  rootedInputFactIds : List StableId
  rootedInputFacts : List RootEvidence

/-- The rank is the interned id of the row's key until the pool is ranked. -/
structure KeyedFact where
  keyRank : ℕ
  fact : MachineFact

structure KeyedWitness where
  resultRank : ℕ
  ruleRank : ℕ
  inputRank : ℕ
  inputOrdinal : ℕ
  edge : MachineEdge

structure BatchAssembly where
  owned : List StableId
  ranks : Interner String
  facts : List KeyedFact
  witnesses : List KeyedWitness
  diagnostics : List String

/-- A fact goes to the first component that has it; a later one remembers the key it gave up. -/
def assembleFact (acc : BatchAssembly × List ℕ) (fact : MachineFact) :
    Option (BatchAssembly × List ℕ) := do
  let key ← encodeMachineKey fact.row
  let interned := acc.1.ranks.intern key
  if fact.factId ∈ acc.1.owned then
    return ({ acc.1 with ranks := interned.1 }, interned.2 :: acc.2)
  else
    return ({ acc.1 with
      owned := fact.factId :: acc.1.owned
      ranks := interned.1
      facts := acc.1.facts ++ [⟨interned.2, fact⟩] }, acc.2)

def assembleEdge (overridden : List ℕ) (acc : BatchAssembly) (edge : MachineEdge) :
    Option BatchAssembly := do
  let resultKey ← encodeMachineKey edge.result
  let result := acc.ranks.intern resultKey
  if result.2 ∈ overridden then return { acc with ranks := result.1 }
  else
    let inputKey ← encodeMachineKey edge.input
    let rule := result.1.intern edge.ruleId
    let input := rule.1.intern inputKey
    return { acc with
      ranks := input.1
      witnesses := acc.witnesses ++ [⟨result.2, rule.2, input.2, edge.inputOrdinal, edge⟩] }

def assembleCompletion (acc : BatchAssembly) (completion : WpaComponentCompletion) :
    Option BatchAssembly := do
  let merged ← completion.result.facts.foldlM assembleFact (acc, [])
  let acc ← completion.result.witnesses.foldlM (assembleEdge merged.2) merged.1
  return { acc with diagnostics := acc.diagnostics ++ completion.result.diagnostics }

/-- The completion once its payload has been moved into the batch. -/
def WpaComponentCompletion.stripped (completion : WpaComponentCompletion) :
    WpaComponentCompletion :=
  { completion with
    result := { completion.result with facts := [], witnesses := [], diagnostics := [] } }

def KeyedWitness.order (ranks : Interner String) (keyed : KeyedWitness) : ℕ ×ₗ ℕ ×ₗ ℕ ×ₗ ℕ :=
  toLex (ranks.rank keyed.resultRank, toLex (ranks.rank keyed.ruleRank,
    toLex (ranks.rank keyed.inputRank, keyed.inputOrdinal)))

/-- Sorted by rank; of facts side by side with one id the first stays. -/
def BatchAssembly.sortedFacts (acc : BatchAssembly) : List MachineFact :=
  ((acc.facts.insertionSort fun a b =>
    acc.ranks.rank a.keyRank ≤ acc.ranks.rank b.keyRank).map (·.fact)).destutter
      fun a b => a.factId ≠ b.factId

def BatchAssembly.sortedWitnesses (acc : BatchAssembly) : List MachineEdge :=
  ((acc.witnesses.insertionSort fun a b =>
    a.order acc.ranks ≤ b.order acc.ranks).map (·.edge)).destutter (· ≠ ·)

/-- The batch before its id is set. -/
def WpaRunResult.assembled (result : WpaRunResult) (completed : List WpaComponentCompletion)
    (acc : BatchAssembly) : AnalysisFactBatch where
  batchId := ⟨.repository, ""⟩
  run := result.run
  expectedComponents := result.expectedComponents.insertionSort (· ≤ ·)
  completedComponents := completed.map (·.stripped)
  rootedInputFactIds := result.rootedInputFactIds.insertionSort (· ≤ ·)
  rootedInputFacts := result.rootedInputFacts
  facts := acc.sortedFacts
  witnesses := acc.sortedWitnesses
  diagnostics := acc.diagnostics.insertionSort (· ≤ ·)

def WpaRunResult.completedInOrder (result : WpaRunResult) : List WpaComponentCompletion :=
  result.completedComponents.insertionSort fun a b => a.key ≤ b.key

/-- `none` is a row key read past the relation table. -/
def makeAnalysisFactBatch (sha256 : String → String) (result : WpaRunResult) :
    Option AnalysisFactBatch := do
  let acc ← result.completedInOrder.foldlM assembleCompletion ⟨[], .empty, [], [], []⟩
  let batch := result.assembled result.completedInOrder acc
  let batchId ← deriveBatchId sha256 batch
  return { batch with batchId := batchId }

/-- The facts of a component that no earlier one owns. -/
def WpaComponentCompletion.keptFacts (owned : List StableId) (c : WpaComponentCompletion) :
    List MachineFact :=
  c.result.facts.filter (·.factId ∉ owned)

/-- The edges of a component except those that prove a fact another one owns. -/
def WpaComponentCompletion.keptEdges (owned : List StableId) (c : WpaComponentCompletion) :
    List MachineEdge :=
  c.result.witnesses.filter fun e => ∀ f ∈ c.result.facts, f.row = e.result → f.factId ∉ owned

/-- What the merge needs of a component: rows of the schema, each fact once. -/
structure WpaComponentResult.Valid (result : WpaComponentResult) : Prop where
  facts : ∀ f ∈ result.facts, validateMachineRow f.row = .ok ()
  witnesses : ∀ e ∈ result.witnesses,
    validateMachineRow e.result = .ok () ∧ validateMachineRow e.input = .ok ()
  ids : (result.facts.map (·.factId)).Nodup

theorem encodeMachineKey_inj {a b : MachineRow} {key : String}
    (ha : validateMachineRow a = .ok ()) (hb : validateMachineRow b = .ok ())
    (hka : encodeMachineKey a = some key) (hkb : encodeMachineKey b = some key) : a = b :=
  (encodeMachineKey_append_inj ha hb hka hkb (r := "") rfl).1

/-- The pass over a component's facts, from the state the earlier components left. -/
structure FactPass (start : BatchAssembly) (seen : List MachineFact)
    (s : BatchAssembly × List ℕ) : Prop where
  owned : ∀ id, id ∈ s.1.owned ↔ id ∈ start.owned ∨ id ∈ seen.map (·.factId)
  facts : s.1.facts.map (·.fact) = start.facts.map (·.fact) ++ seen.filter (·.factId ∉ start.owned)
  named : ∀ n ∈ s.2, ∃ key, s.1.ranks.Names n key
  overridden : ∀ key, (∃ n ∈ s.2, s.1.ranks.Names n key) ↔
    ∃ f ∈ seen, f.factId ∈ start.owned ∧ encodeMachineKey f.row = some key
  witnesses : s.1.witnesses = start.witnesses

theorem factPass_start (start : BatchAssembly) : FactPass start [] (start, []) where
  owned := by simp
  facts := by simp
  named := by simp
  overridden := by simp
  witnesses := rfl

variable {s start : BatchAssembly} {c : WpaComponentCompletion} {cs : List WpaComponentCompletion}

theorem FactPass.step {seen : List MachineFact} {s : BatchAssembly × List ℕ} {fact : MachineFact}
    (h : FactPass start seen s) (hvalid : validateMachineRow fact.row = .ok ())
    (hfresh : fact.factId ∉ seen.map (·.factId)) :
    ∃ s', assembleFact s fact = some s' ∧ FactPass start (seen ++ [fact]) s' := by
  obtain ⟨key, hkey⟩ := Option.isSome_iff_exists.mp (encodeMachineKey_isSome hvalid)
  obtain ⟨hnew, hold, -⟩ := Interner.intern_names s.1.ranks key
  have hheld : fact.factId ∈ s.1.owned ↔ fact.factId ∈ start.owned := by
    rw [h.owned]
    exact or_iff_left hfresh
  have hnamed : ∀ n ∈ s.2, ∃ key', (s.1.ranks.intern key).1.Names n key' :=
    fun n hn => (h.named n hn).imp (hold n)
  have hnames : ∀ key', (∃ n ∈ s.2, (s.1.ranks.intern key).1.Names n key') ↔
      ∃ f ∈ seen, f.factId ∈ start.owned ∧ encodeMachineKey f.row = some key' := by
    intro key'
    rw [← h.overridden key']
    refine exists_congr fun n => and_congr_right fun hn => ⟨fun hn' => ?_, hold n key'⟩
    -- an id of the earlier table keeps its key
    obtain ⟨k, hk⟩ := h.named n hn
    rw [hn'.unique (hold n k hk)]
    exact hk
  have hseen : ∀ key', (∃ f ∈ seen ++ [fact], f.factId ∈ start.owned ∧
      encodeMachineKey f.row = some key') ↔ (∃ f ∈ seen, f.factId ∈ start.owned ∧
        encodeMachineKey f.row = some key') ∨ (fact.factId ∈ start.owned ∧ key = key') := by
    intro key'
    simp only [mem_append, mem_singleton, or_and_right, exists_or, exists_eq_left, hkey,
      Option.some.injEq]
  by_cases howned : fact.factId ∈ s.1.owned
  · have hstart := hheld.mp howned
    refine ⟨({ s.1 with ranks := (s.1.ranks.intern key).1 }, (s.1.ranks.intern key).2 :: s.2),
      by simp [assembleFact, hkey, howned], ?_, ?_, ?_, ?_, h.witnesses⟩
    · intro id
      rw [h.owned, map_append, mem_append, map_singleton, mem_singleton, ← or_assoc]
      refine (or_iff_left_of_imp ?_).symm
      rintro rfl
      exact .inl hstart
    · rw [h.facts, filter_append]
      simp [hstart]
    · intro n hn
      rcases mem_cons.mp hn with rfl | hn
      · exact ⟨key, hnew⟩
      · exact hnamed n hn
    · intro key'
      rw [exists_mem_cons_iff, hnames, hseen, or_comm]
      refine or_congr Iff.rfl ⟨fun hk => ⟨hstart, hnew.unique hk⟩, ?_⟩
      rintro ⟨-, rfl⟩
      exact hnew
  · have hstart : fact.factId ∉ start.owned := fun hid => howned (hheld.mpr hid)
    refine ⟨({ s.1 with
        owned := fact.factId :: s.1.owned
        ranks := (s.1.ranks.intern key).1
        facts := s.1.facts ++ [⟨(s.1.ranks.intern key).2, fact⟩] }, s.2),
      by simp [assembleFact, hkey, howned], ?_, ?_, hnamed, ?_, h.witnesses⟩
    · intro id
      rw [mem_cons, h.owned, map_append, mem_append, map_singleton,
        mem_singleton, or_left_comm, or_comm (a := id = fact.factId)]
    · rw [map_append, h.facts, filter_append, append_assoc]
      simp [hstart]
    · intro key'
      rw [hnames, hseen, or_iff_left fun hbad => hstart hbad.1]

/-- The pass over a component's edges, with the ids its own pass over the facts gave up. -/
structure EdgePass (c : WpaComponentCompletion) (before : List StableId) (mid : BatchAssembly)
    (seen : List MachineEdge) (s : BatchAssembly) : Prop where
  owned : s.owned = mid.owned
  facts : s.facts = mid.facts
  named : ∀ n key, mid.ranks.Names n key → s.ranks.Names n key
  witnesses : s.witnesses.map (·.edge) = mid.witnesses.map (·.edge) ++
    seen.filter fun e => ∀ f ∈ c.result.facts, f.row = e.result → f.factId ∉ before

theorem EdgePass.step {mid : BatchAssembly × List ℕ} {seen : List MachineEdge} {edge : MachineEdge}
    (hc : c.result.Valid) (hmid : FactPass start c.result.facts mid)
    (h : EdgePass c start.owned mid.1 seen s) (hedge : edge ∈ c.result.witnesses) :
    ∃ s', assembleEdge mid.2 s edge = some s' ∧
      EdgePass c start.owned mid.1 (seen ++ [edge]) s' := by
  obtain ⟨hresult, hinput⟩ := hc.witnesses edge hedge
  obtain ⟨key, hkey⟩ := Option.isSome_iff_exists.mp (encodeMachineKey_isSome hresult)
  obtain ⟨inputKey, hinputKey⟩ := Option.isSome_iff_exists.mp (encodeMachineKey_isSome hinput)
  obtain ⟨hnew, hold, -⟩ := Interner.intern_names s.ranks key
  have hoverridden : (s.ranks.intern key).2 ∈ mid.2 ↔
      ∃ f ∈ c.result.facts, f.row = edge.result ∧ f.factId ∈ start.owned := by
    constructor
    · intro hmem
      obtain ⟨k, hk⟩ := hmid.named _ hmem
      have hsame := (hold _ k (h.named _ k hk)).unique hnew
      obtain ⟨f, hf, howned, hfkey⟩ := (hmid.overridden key).mp ⟨_, hmem, hsame ▸ hk⟩
      exact ⟨f, hf, encodeMachineKey_inj (hc.facts f hf) hresult hfkey hkey, howned⟩
    · rintro ⟨f, hf, hrow, howned⟩
      obtain ⟨n, hn, hnames⟩ := (hmid.overridden key).mpr ⟨f, hf, howned, hrow ▸ hkey⟩
      rw [hnew.inj (hold n key (h.named n key hnames))]
      exact hn
  by_cases hmem : (s.ranks.intern key).2 ∈ mid.2
  · refine ⟨{ s with ranks := (s.ranks.intern key).1 }, by simp [assembleEdge, hkey, hmem],
      h.owned, h.facts, fun n k hk => hold n k (h.named n k hk), ?_⟩
    obtain ⟨f, hf, hrow, howned⟩ := hoverridden.mp hmem
    rw [h.witnesses, filter_append, filter_singleton, decide_eq_false, cond_false, append_nil]
    exact fun hall => hall f hf hrow howned
  · have hkeep : ∀ f ∈ c.result.facts, f.row = edge.result → f.factId ∉ start.owned := by
      intro f hf hrow howned
      exact hmem (hoverridden.mpr ⟨f, hf, hrow, howned⟩)
    obtain ⟨-, hold', -⟩ := Interner.intern_names (s.ranks.intern key).1 edge.ruleId
    obtain ⟨-, hold'', -⟩ :=
      Interner.intern_names ((s.ranks.intern key).1.intern edge.ruleId).1 inputKey
    have hstep : assembleEdge mid.2 s edge = some { s with
        ranks := (((s.ranks.intern key).1.intern edge.ruleId).1.intern inputKey).1
        witnesses := s.witnesses ++ [⟨(s.ranks.intern key).2,
          ((s.ranks.intern key).1.intern edge.ruleId).2,
          (((s.ranks.intern key).1.intern edge.ruleId).1.intern inputKey).2,
          edge.inputOrdinal, edge⟩] } := by
      simp [assembleEdge, hkey, hinputKey, hmem]
    refine ⟨_, hstep, h.owned, h.facts,
      fun n k hk => hold'' n k (hold' n k (hold n k (h.named n k hk))), ?_⟩
    rw [map_append, h.witnesses, filter_append, append_assoc, filter_singleton,
      decide_eq_true hkeep, cond_true]
    rfl

/-- A component adds its facts and proofs that no earlier component owns. -/
theorem assembleCompletion_spec (hc : c.result.Valid) :
    ∃ s, assembleCompletion start c = some s ∧
      (∀ id, id ∈ s.owned ↔ id ∈ start.owned ∨ id ∈ c.result.facts.map (·.factId)) ∧
      s.facts.map (·.fact) = start.facts.map (·.fact) ++ c.keptFacts start.owned ∧
      s.witnesses.map (·.edge) = start.witnesses.map (·.edge) ++ c.keptEdges start.owned := by
  obtain ⟨mid, hmid, hpass⟩ := Ordered.foldlM_goesOn (f := assembleFact) (l := c.result.facts)
    (FactPass start) (factPass_start start) (by
    intro pre fact post hsplit s hseen
    have hmem : fact ∈ c.result.facts := by
      rw [hsplit]
      exact mem_append_right _ mem_cons_self
    refine hseen.step (hc.facts fact hmem) ?_
    have hids := hc.ids
    rw [hsplit, map_append, map_cons] at hids
    intro hbad
    exact (nodup_append.mp hids).2.2 _ hbad _ mem_cons_self rfl)
  obtain ⟨s, hs, hedges⟩ := Ordered.foldlM_goesOn (f := assembleEdge mid.2)
    (l := c.result.witnesses) (EdgePass c start.owned mid.1)
    (s := mid.1) ⟨rfl, rfl, fun _ _ h => h, by simp⟩ (by
    intro pre edge post hsplit s hseen
    refine hseen.step hc hpass ?_
    rw [hsplit]
    exact mem_append_right _ mem_cons_self)
  have hstep : assembleCompletion start c =
      some { s with diagnostics := s.diagnostics ++ c.result.diagnostics } := by
    simp [assembleCompletion, hmid, hs]
  refine ⟨_, hstep, ?_, ?_, ?_⟩
  · intro id
    rw [hedges.owned]
    exact hpass.owned id
  · rw [hedges.facts]
    exact hpass.facts
  · rw [hedges.witnesses, hpass.witnesses]
    rfl

def ownedIds (cs : List WpaComponentCompletion) : List StableId :=
  cs.flatMap fun c => c.result.facts.map (·.factId)

theorem keptFacts_congr {owned owned' : List StableId} (h : ∀ id, id ∈ owned ↔ id ∈ owned')
    (c : WpaComponentCompletion) : c.keptFacts owned = c.keptFacts owned' := by
  simp only [WpaComponentCompletion.keptFacts, h]

theorem keptEdges_congr {owned owned' : List StableId} (h : ∀ id, id ∈ owned ↔ id ∈ owned')
    (c : WpaComponentCompletion) : c.keptEdges owned = c.keptEdges owned' := by
  simp only [WpaComponentCompletion.keptEdges, h]

/-- Every fact and proof goes to the first component that has the fact. -/
structure Merged (cs : List WpaComponentCompletion) (s : BatchAssembly) : Prop where
  owned : ∀ id, id ∈ s.owned ↔ id ∈ ownedIds cs
  facts : ∀ f, f ∈ s.facts.map (·.fact) ↔
    ∃ pre c post, cs = pre ++ c :: post ∧ f ∈ c.keptFacts (ownedIds pre)
  edges : ∀ e, e ∈ s.witnesses.map (·.edge) ↔
    ∃ pre c post, cs = pre ++ c :: post ∧ e ∈ c.keptEdges (ownedIds pre)
  ids : ((s.facts.map (·.fact)).map (·.factId)).Nodup

theorem Merged.step (h : Merged cs s) (hc : c.result.Valid) :
    ∃ s', assembleCompletion s c = some s' ∧ Merged (cs ++ [c]) s' := by
  obtain ⟨s', hs', howned, hfacts, hedges⟩ := assembleCompletion_spec hc
  rw [keptFacts_congr h.owned] at hfacts
  rw [keptEdges_congr h.owned] at hedges
  refine ⟨s', hs', ?_, ?_, ?_, ?_⟩
  · intro id
    rw [howned, h.owned]
    simp [ownedIds]
  · intro f
    rw [hfacts, mem_append, h.facts, Ordered.exists_split_concat]
  · intro e
    rw [hedges, mem_append, h.edges, Ordered.exists_split_concat]
  · rw [hfacts, map_append]
    refine nodup_append.mpr ⟨h.ids, (filter_sublist.map _).nodup hc.ids, ?_⟩
    -- a fact kept before is owned, so its id is not among the new ones
    intro a ha b hb hab
    obtain ⟨f, hf, rfl⟩ := mem_map.mp ha
    obtain ⟨g, hg, rfl⟩ := mem_map.mp hb
    have hfresh := of_decide_eq_true (mem_filter.mp hg).2
    obtain ⟨pre, d, post, rfl, hkept⟩ := (h.facts f).mp hf
    refine hfresh (mem_flatMap.mpr ⟨d, by simp, ?_⟩)
    rw [← hab]
    exact mem_map_of_mem (mem_filter.mp hkept).1

theorem merged_assembly (hcs : ∀ c ∈ cs, c.result.Valid) :
    ∃ s, cs.foldlM assembleCompletion ⟨[], .empty, [], [], []⟩ = some s ∧ Merged cs s := by
  refine Ordered.foldlM_goesOn Merged ⟨by simp [ownedIds], by simp, by simp, by simp⟩ ?_
  intro pre c post hsplit s hmerged
  refine hmerged.step (hcs c ?_)
  rw [hsplit]
  exact mem_append_right _ mem_cons_self

theorem sortedFacts_perm (h : ((s.facts.map (·.fact)).map (·.factId)).Nodup) :
    s.sortedFacts.Perm (s.facts.map (·.fact)) := by
  have hperm : ((s.facts.insertionSort fun a b =>
      s.ranks.rank a.keyRank ≤ s.ranks.rank b.keyRank).map (·.fact)).Perm
        (s.facts.map (·.fact)) := (perm_insertionSort _ _).map _
  have hids := ((hperm.map (·.factId)).nodup_iff.mpr h)
  have hchain := (pairwise_map.mp hids).isChain
  rw [BatchAssembly.sortedFacts, destutter_of_isChain _ _ hchain]
  exact hperm

theorem mem_sortedWitnesses {e : MachineEdge} :
    e ∈ s.sortedWitnesses ↔ e ∈ s.witnesses.map (·.edge) := by
  rw [BatchAssembly.sortedWitnesses, Ordered.mem_destutter_ne]
  exact ((perm_insertionSort _ _).map _).mem_iff

end Veritas
