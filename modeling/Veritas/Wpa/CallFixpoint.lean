import Veritas.Wpa.RuleClosure

/-! The call-mediated closures compute the least rows closed under their domain rules. -/
namespace Veritas

open Saturation Ordered StatusOr DomainInput List

variable {ids : ResolvedRow → List StableId} {mappings : StableIdMappings} {missing : String}
  {row : ExecutionRow} {resolved : ResolvedRow} {relation : RelationId} {t : DerivedTuple}
  {call : CallEdgeTuple} {calls : List CallEdgeTuple} {domain : Domain}

theorem readTuple_eq_ok {read : DerivedTuple × SemanticRow} :
    readTuple ids mappings missing row = .ok read ↔
      ∃ resolved, resolveRow mappings row = .ok resolved ∧
        resolved.tuple (ids resolved) = some read.1 ∧ resolved.semantic = read.2 := by
  simp only [readTuple, bind_eq_ok]
  refine exists_congr fun resolved => and_congr_right fun _ => ?_
  cases resolved.tuple (ids resolved) with
  | none => simp
  | some t =>
    rw [pure_eq_ok, Prod.ext_iff, Option.some.injEq]

theorem resolveRow_epistemics (h : resolveRow mappings row = .ok resolved) :
    resolved.epistemics ≠ [] := by
  unfold resolveRow at h
  split_ifs at h with hlen
  obtain ⟨r, -, hr⟩ := bind_eq_ok.mp h
  split_ifs at hr with hne
  rwa [← pure_eq_ok.mp hr]

/-- A row with two endpoints reads as a tuple. -/
theorem readTuple_isOk (missing : String) (h : resolveRow mappings row = .ok resolved)
    (hids : 2 ≤ (ids resolved).length) : ∃ read, readTuple ids mappings missing row = .ok read := by
  have hepi := resolveRow_epistemics h
  obtain ⟨e, es, he⟩ := exists_cons_of_ne_nil hepi
  have htuple : ∃ t, resolved.tuple (ids resolved) = some t := by
    match hl : ids resolved with
    | [] => simp [hl] at hids
    | [_] => simp [hl] at hids
    | s :: o :: _ => exact ⟨⟨s, o, e⟩, by simp [ResolvedRow.tuple, he]⟩
  obtain ⟨t, ht⟩ := htuple
  exact ⟨(t, resolved.semantic), readTuple_eq_ok.mpr ⟨resolved, h, ht, rfl⟩⟩

theorem resultRow_inj {relation' : RelationId} {t' : DerivedTuple} :
    resultRow relation t = resultRow relation' t' ↔ relation = relation' ∧ t = t' := by
  cases t
  cases t'
  simp [resultRow]

def DomainInput.rules (d : DomainInput) : Set TupleFiring :=
  {f | (∃ call ∈ d.calls, ∃ t, callTransitive d.domain call t = some f) ∨
    ∃ call ∈ d.calls, ∃ p ∈ d.support, callSupport d.domain call p = some f}

theorem DomainInput.generates (d : DomainInput) : d.system.Generates d.rules := by
  intro s f
  refine mem_fire.trans ⟨?_, ?_⟩
  · rintro (⟨call, hcall, t, ht, hf⟩ | hf)
    · refine ⟨.inl ⟨call, hcall, t, hf⟩, ?_⟩
      obtain ⟨-, e, -, rfl⟩ := callTransitive_eq_some.mp hf
      simpa using ht
    · refine ⟨.inr hf, ?_⟩
      obtain ⟨call, -, p, -, hf⟩ := hf
      obtain ⟨-, e, -, rfl⟩ := callSupport_eq_some.mp hf
      simp
  · rintro ⟨⟨call, hcall, t, hf⟩ | hf, hprem⟩
    · obtain ⟨-, e, -, rfl⟩ := callTransitive_eq_some.mp hf
      exact .inl ⟨call, hcall, t, by simpa using hprem, hf⟩
    · exact .inr hf

theorem DomainInput.seeds_premises (d : DomainInput) : ∀ f ∈ d.seeds, f.premises = [] := by
  intro f hf
  obtain ⟨p, -, hf⟩ := mem_seeds.mp hf
  obtain ⟨-, rfl⟩ := baseFiring_eq_some.mp hf
  rfl

theorem DomainInput.mem_close {d : DomainInput} :
    t ∈ d.close.derived ↔ Derivable (allRules d.seeds d.rules) t :=
  mem_saturate_derived d.generates d.seeds_premises d.seeds_carrier

/-- The domain input holds exactly what the input's rows state. -/
structure DomainInput.Reads (d : DomainInput) (input : WpaLogicalComponentInput) : Prop where
  calls : ∀ caller callee e row, ⟨caller, callee, e, row⟩ ∈ d.calls ↔
    Stated input (·.endpointIds) .directCall ⟨caller, callee, e⟩ row
  base : ∀ t row, (t, row) ∈ d.base ↔ Stated input (·.endpointIds) d.domain.baseRelation t row
  support : ∀ t row, (t, row) ∈ d.support ↔
    Stated input (·.endpointIds) d.domain.supportRelation t row

variable {input : WpaLogicalComponentInput}

theorem mem_calls_iff
    (h : (input.edb.filter (·.relation = .directCall)).mapM (callEdge input.mappings) = .ok calls) :
    call ∈ calls ↔ Stated input (·.endpointIds) .directCall
      ⟨call.caller, call.callee, call.epistemic⟩ call.row := by
  rw [mem_of_mapM h]
  simp only [mem_filter, decide_eq_true_eq, callEdge, bind_eq_ok,
    pure_eq_ok, readTuple_eq_ok, Stated, and_assoc]
  refine exists_congr fun row => and_congr_right fun _ => and_congr_right fun _ => ?_
  constructor
  · rintro ⟨read, ⟨resolved, hres, htuple, hsem⟩, rfl⟩
    exact ⟨resolved, hres, htuple, hsem⟩
  · rintro ⟨resolved, hres, htuple, hsem⟩
    exact ⟨(_, _), ⟨resolved, hres, htuple, hsem⟩, rfl⟩

/-- The rows read with their relation are what the input states of the relations read. -/
theorem mem_statedRows {p : RelationId → Prop} [DecidablePred p]
    {rows : List (RelationId × DerivedTuple × SemanticRow)}
    (hrows : (input.edb.filter fun row => p row.relation).mapM (fun row => do
      return (row.relation, ← readTuple ids input.mappings missing row)) = .ok rows)
    (relation : RelationId) (t : DerivedTuple) (row : SemanticRow) :
    (relation, t, row) ∈ rows ↔ p relation ∧ Stated input ids relation t row := by
  rw [mem_of_mapM hrows]
  simp only [mem_filter, decide_eq_true_eq, bind_eq_ok, pure_eq_ok,
    readTuple_eq_ok, Prod.mk.injEq, Stated]
  constructor
  · rintro ⟨x, ⟨hx, hrel⟩, read, hread, rfl, rfl⟩
    exact ⟨hrel, x, hx, rfl, hread⟩
  · rintro ⟨hrel, x, hx, rfl, hread⟩
    exact ⟨x, ⟨hx, hrel⟩, (t, row), hread, rfl, rfl⟩

theorem domainInput_reads {d : DomainInput}
    (hne : domain.baseRelation ≠ domain.supportRelation)
    (hcalls : (input.edb.filter (·.relation = .directCall)).mapM (callEdge input.mappings) =
      .ok calls) (h : domainInput input calls domain = .ok d) :
    d.domain = domain ∧ d.Reads input := by
  obtain ⟨rows, hrows, hd⟩ := bind_eq_ok.mp h
  obtain rfl := pure_eq_ok.mp hd
  have hmem := mem_statedRows (p := fun relation => relation = domain.baseRelation ∨
    relation = domain.supportRelation) hrows
  refine ⟨rfl, ?_, ?_, ?_⟩
  · intro caller callee e row
    exact mem_calls_iff hcalls
  · intro t row
    simp only [mem_map, mem_filter, decide_eq_true_eq]
    constructor
    · rintro ⟨⟨relation, t', row'⟩, ⟨hx, hrel⟩, heq⟩
      obtain ⟨rfl, rfl⟩ := Prod.mk.inj heq
      obtain rfl := hrel
      exact ((hmem _ _ _).mp hx).2
    · intro hs
      exact ⟨(domain.baseRelation, t, row), ⟨(hmem _ _ _).mpr ⟨.inl rfl, hs⟩, rfl⟩, rfl⟩
  · intro t row
    simp only [mem_map, mem_filter, decide_eq_true_eq]
    constructor
    · rintro ⟨⟨relation, t', row'⟩, ⟨hx, hrel⟩, heq⟩
      obtain ⟨rfl, rfl⟩ := Prod.mk.inj heq
      obtain ⟨hor, hs⟩ := (hmem _ _ _).mp hx
      obtain rfl := hor.resolve_left hrel
      exact hs
    · intro hs
      exact ⟨(domain.supportRelation, t, row), ⟨(hmem _ _ _).mpr ⟨.inr rfl, hs⟩, hne.symm⟩, rfl⟩

/-- The rows a closed domain publishes. -/
def DomainInput.published (d : DomainInput) : Set SemanticRow :=
  {r | ∃ t ∈ d.close.derived, r = resultRow d.domain.derivedRelation t}

theorem DomainInput.mem_published {d : DomainInput} :
    resultRow relation t ∈ d.published ↔
      relation = d.domain.derivedRelation ∧ t ∈ d.close.derived := by
  constructor
  · rintro ⟨t', ht', heq⟩
    obtain ⟨hrel, rfl⟩ := resultRow_inj.mp heq
    exact ⟨hrel, ht'⟩
  · rintro ⟨rfl, ht⟩
    exact ⟨t, ht, rfl⟩

section Domain

variable {input : WpaLogicalComponentInput} {d : DomainInput} {e : EpistemicState}

theorem DomainInput.Reads.exists_call (h : d.Reads input) {caller callee : StableId}
    (hs : States input .directCall ⟨caller, callee, e⟩) :
    ∃ row, (⟨caller, callee, e, row⟩ : CallEdgeTuple) ∈ d.calls := by
  obtain ⟨row, hrow⟩ := hs
  exact ⟨row, (h.calls _ _ _ _).mpr hrow⟩

theorem DomainInput.derivable_direct {row : SemanticRow} (hb : (t, row) ∈ d.base)
    (hpos : t.epistemic ≠ .mustNot) : t ∈ d.close.derived := by
  have hf : baseFiring d.domain (t, row) = some _ :=
    baseFiring_eq_some.mpr ⟨weaknessRank_isSome.mpr hpos, rfl⟩
  exact mem_close.mpr (.seed (mem_seeds.mpr ⟨_, hb, hf⟩) rfl)

theorem DomainInput.derivable_transitive (hcall : call ∈ d.calls) (ht : t ∈ d.close.derived)
    (hsub : t.subject = call.callee) (he : Composes call.epistemic t.epistemic e) :
    ⟨call.caller, t.object, e⟩ ∈ d.close.derived := by
  have hf : callTransitive d.domain call t = some _ :=
    callTransitive_eq_some.mpr ⟨hsub, e, weaken_eq_some.mpr he, rfl⟩
  have hrule : _ ∈ d.rules := Or.inl ⟨call, hcall, t, hf⟩
  refine mem_close.mpr (.rule hrule ?_)
  simpa using mem_close.mp ht

theorem DomainInput.derivable_support {p : DerivedTuple × SemanticRow} (hcall : call ∈ d.calls)
    (hp : p ∈ d.support) (hsub : p.1.subject = call.callee)
    (he : Composes call.epistemic p.1.epistemic e) :
    ⟨call.caller, p.1.object, e⟩ ∈ d.close.derived := by
  have hf : callSupport d.domain call p = some _ :=
    callSupport_eq_some.mpr ⟨hsub, e, weaken_eq_some.mpr he, rfl⟩
  have hrule : _ ∈ d.rules := Or.inr ⟨call, hcall, p, hp, hf⟩
  exact mem_close.mpr (.rule hrule (by simp))

theorem DomainInput.published_closed (h : d.Reads input) :
    CallClosed input d.domain d.published := by
  refine ⟨?_, ?_, ?_⟩
  · rintro t ⟨row, hrow⟩ hpos
    exact ⟨t, derivable_direct ((h.base _ _).mpr hrow) hpos, rfl⟩
  · intro caller callee object e e' c hcall hfact hc
    obtain ⟨row, hcall⟩ := h.exists_call hcall
    have ht := (mem_published.mp hfact).2
    exact ⟨_, derivable_transitive hcall ht rfl hc, rfl⟩
  · intro caller callee object e e' c hcall hsup hc
    obtain ⟨row, hcall⟩ := h.exists_call hcall
    obtain ⟨srow, hsrow⟩ := hsup
    exact ⟨_, derivable_support hcall ((h.support _ _).mpr hsrow) rfl hc, rfl⟩

theorem DomainInput.published_least (h : d.Reads input) {facts : Set SemanticRow}
    (hfacts : CallClosed input d.domain facts) : d.published ⊆ facts := by
  rintro r ⟨t, ht, rfl⟩
  rw [mem_close] at ht
  -- along the derivation, one case for each rule of the domain
  induction ht with
  | @fire f hf _ ih =>
    rcases hf with hf | ⟨call, hcall, t, hf⟩ | ⟨call, hcall, p, hp, hf⟩
    · obtain ⟨⟨t, row⟩, hb, hf⟩ := mem_seeds.mp hf
      obtain ⟨hpos, rfl⟩ := baseFiring_eq_some.mp hf
      exact hfacts.direct t ⟨row, (h.base _ _).mp hb⟩ (weaknessRank_isSome.mp hpos)
    · obtain ⟨hsub, e, he, rfl⟩ := callTransitive_eq_some.mp hf
      obtain ⟨s, o, e'⟩ := t
      obtain rfl : s = call.callee := hsub
      exact hfacts.transitive _ _ _ _ _ _ ⟨call.row, (h.calls _ _ _ _).mp hcall⟩
        (ih _ mem_cons_self) (weaken_eq_some.mp he)
    · obtain ⟨hsub, e, he, rfl⟩ := callSupport_eq_some.mp hf
      obtain ⟨⟨s, o, e'⟩, row⟩ := p
      obtain rfl : s = call.callee := hsub
      exact hfacts.support _ _ _ _ _ _ ⟨call.row, (h.calls _ _ _ _).mp hcall⟩
        ⟨row, (h.support _ _).mp hp⟩ (weaken_eq_some.mp he)

end Domain

variable {component : WpaComponentKind}

theorem domainsFor_relations (h : domain ∈ domainsFor component) :
    domain.baseRelation ≠ domain.supportRelation := by
  unfold domainsFor at h
  split_ifs at h
  · obtain rfl : domain = _ := by simpa using h
    decide
  · obtain rfl | rfl : domain = _ ∨ domain = _ := by simpa using h
    · decide
    · decide

theorem domainsFor_derived_inj {domain' : Domain} (h : domain ∈ domainsFor component)
    (h' : domain' ∈ domainsFor component) (heq : domain.derivedRelation = domain'.derivedRelation) :
    domain = domain' := by
  unfold domainsFor at h h'
  split_ifs at h h' with hc
  · obtain rfl : domain = _ := by simpa using h
    obtain rfl : domain' = _ := by simpa using h'
    rfl
  · obtain rfl | rfl : domain = _ ∨ domain = _ := by simpa using h
    all_goals obtain rfl | rfl : domain' = _ ∨ domain' = _ := by simpa using h'
    · rfl
    · exact absurd heq (by decide)
    · exact absurd heq (by decide)
    · rfl

section Calls

variable {input : WpaLogicalComponentInput} {ds : List DomainInput}

/-- The call-mediated part of an input that resolves is read without an error. -/
theorem callInputs_isOk (hc : input.component = component)
    (h : ∀ row ∈ input.edb, row.relation = .directCall ∨
      (∃ domain ∈ domainsFor component,
        row.relation = domain.baseRelation ∨ row.relation = domain.supportRelation) →
      ∃ resolved, resolveRow input.mappings row = .ok resolved ∧
        2 ≤ resolved.endpointIds.length) : ∃ ds, callInputs input = .ok ds := by
  subst hc
  obtain ⟨calls, hcalls⟩ := mapM_isOk (callEdge input.mappings)
    (input.edb.filter (·.relation = .directCall)) fun row hrow => by
      simp only [mem_filter, decide_eq_true_eq] at hrow
      obtain ⟨resolved, hres, hlen⟩ := h row hrow.1 (.inl hrow.2)
      obtain ⟨read, hread⟩ := readTuple_isOk "DirectCall row is missing endpoints" hres hlen
      exact ⟨_, bind_eq_ok.mpr ⟨read, hread, rfl⟩⟩
  have hdomains : ∀ domain ∈ domainsFor input.component, ∃ d,
      domainInput input calls domain = .ok d := by
    intro domain hdomain
    obtain ⟨rows, hrows⟩ := mapM_isOk (fun row => do
        let tuple ← readTuple (·.endpointIds) input.mappings "base row is missing subjects" row
        return (row.relation, tuple))
      (input.edb.filter fun row =>
        row.relation = domain.baseRelation ∨ row.relation = domain.supportRelation)
      fun row hrow => by
        simp only [mem_filter, decide_eq_true_eq] at hrow
        obtain ⟨resolved, hres, hlen⟩ := h row hrow.1 (.inr ⟨domain, hdomain, hrow.2⟩)
        obtain ⟨read, hread⟩ := readTuple_isOk "base row is missing subjects" hres hlen
        exact ⟨_, bind_eq_ok.mpr ⟨read, hread, rfl⟩⟩
    exact ⟨_, bind_eq_ok.mpr ⟨rows, hrows, rfl⟩⟩
  obtain ⟨ds, hds⟩ := mapM_isOk _ _ hdomains
  exact ⟨ds, bind_eq_ok.mpr ⟨calls, hcalls, hds⟩⟩

theorem callInputs_reads (h : callInputs input = .ok ds) :
    (∀ domain ∈ domainsFor input.component, ∃ d ∈ ds, d.domain = domain) ∧
      (∀ d ∈ ds, d.domain ∈ domainsFor input.component ∧ d.Reads input) ∧
      ∀ d ∈ ds, ∀ d' ∈ ds, d.domain = d'.domain → d = d' := by
  obtain ⟨calls, hcalls, hds⟩ := bind_eq_ok.mp h
  have hread : ∀ d ∈ ds, ∃ domain ∈ domainsFor input.component,
      domainInput input calls domain = .ok d ∧ d.domain = domain ∧ d.Reads input := by
    intro d hd
    obtain ⟨domain, hdomain, hok⟩ := (mem_of_mapM hds).mp hd
    exact ⟨domain, hdomain, hok, domainInput_reads (domainsFor_relations hdomain) hcalls hok⟩
  refine ⟨?_, ?_, ?_⟩
  · intro domain hdomain
    obtain ⟨d, hd, hok⟩ := (forall_of_mapM hds) domain hdomain
    exact ⟨d, hd, (domainInput_reads (domainsFor_relations hdomain) hcalls hok).1⟩
  · intro d hd
    obtain ⟨domain, hdomain, -, rfl, hreads⟩ := hread d hd
    exact ⟨hdomain, hreads⟩
  · intro d hd d' hd' heq
    obtain ⟨domain, -, hok, rfl, -⟩ := hread d hd
    obtain ⟨domain', -, hok', rfl, -⟩ := hread d' hd'
    rw [heq] at hok
    exact Except.ok.inj (hok.symm.trans hok')

theorem mem_collect_results {r : SemanticRow} :
    r ∈ (collect ds).results ↔ ∃ d ∈ ds, r ∈ d.published := by
  simp [collect, published, eq_comm]

theorem collect_isLeast (hc : input.component = component) (h : callInputs input = .ok ds) :
    IsLeast {facts | ∀ domain ∈ domainsFor component, CallClosed input domain facts}
      {r | r ∈ (collect ds).results} := by
  subst hc
  obtain ⟨hall, hreads, hinj⟩ := callInputs_reads h
  have hiff : ∀ d ∈ ds, ∀ t, resultRow d.domain.derivedRelation t ∈ (collect ds).results ↔
      resultRow d.domain.derivedRelation t ∈ d.published := by
    intro d hd t
    rw [mem_collect_results]
    constructor
    · rintro ⟨d', hd', hmem⟩
      have hrel := (mem_published.mp hmem).1
      have hdom := domainsFor_derived_inj (hreads d hd).1 (hreads d' hd').1 hrel
      obtain rfl := hinj d hd d' hd' hdom
      exact hmem
    · exact fun hmem => ⟨d, hd, hmem⟩
  constructor
  · intro domain hdomain
    obtain ⟨d, hd, rfl⟩ := hall domain hdomain
    have hc := published_closed (hreads d hd).2
    refine ⟨?_, ?_, ?_⟩
    · intro t hs hpos
      exact (hiff d hd t).mpr (hc.direct t hs hpos)
    · intro caller callee object e e' c hcall hfact hcomp
      exact (hiff d hd _).mpr (hc.transitive _ _ _ _ _ _ hcall ((hiff d hd _).mp hfact) hcomp)
    · intro caller callee object e e' c hcall hsup hcomp
      exact (hiff d hd _).mpr (hc.support _ _ _ _ _ _ hcall hsup hcomp)
  · intro facts hfacts r hr
    obtain ⟨d, hd, hmem⟩ := mem_collect_results.mp hr
    exact published_least (hreads d hd).2 (hfacts _ (hreads d hd).1) hmem

end Calls

end Veritas
