import Veritas.Evidence.RuleInvariance

/-! Where the verdict reads an order: the omission that answers for an interrupted query, and the
universal goal that fixes the execution domain. -/
namespace Veritas.Evidence

open Function Matching Expression List Ordered

variable {omissions : List Omission}

section Omissions

variable {a b : EvidenceCase}

/-- Every omission about an interrupted query is expandable, and there is one. -/
def OmissionsSettled (value : EvidenceCase) : Prop :=
  ∀ unknown ∈ value.unknowns, unknown.reasonCode.isInterruptedQuery → unknown.id ≠ "" ∧
    (∃ omission ∈ value.omissions, omission.subject = unknown.id) ∧
    ∀ omission ∈ value.omissions, omission.subject = unknown.id → omission.expandable

/-- Every interrupted query has an expandable omission about it. -/
def OmissionsPossible (value : EvidenceCase) : Prop :=
  ∀ unknown ∈ value.unknowns, unknown.reasonCode.isInterruptedQuery → unknown.id ≠ "" ∧
    ∃ omission ∈ value.omissions, omission.subject = unknown.id ∧ omission.expandable

theorem mem_omissionDeclaring {value : EvidenceCase} {id : String} {omission : Omission}
    (h : omission ∈ omissionDeclaring value id) :
    id ≠ "" ∧ omission ∈ value.omissions ∧ omission.subject = id := by
  rw [omissionDeclaring] at h
  split at h
  · cases h
  · next hid =>
    exact ⟨hid, of_find? h⟩

theorem OmissionsSettled.declared (h : OmissionsSettled a) (hab : a.SameContent b) :
    InterruptedDeclared b := by
  intro unknown hunknown hinterrupted
  obtain ⟨u, hu, hsame⟩ := hab.unknowns.exists_right hunknown
  have hcode : u.reasonCode = unknown.reasonCode := by rw [hsame.1]
  have hid : u.id = unknown.id := by rw [hsame.1]
  obtain ⟨hne, ⟨omission, homission, hsubject⟩, hall⟩ := h u hu (hcode ▸ hinterrupted)
  rw [hid] at hne hsubject hall
  obtain ⟨first, hfirst, hmem, hfirstSubject⟩ := exists_find? (p := (·.subject = unknown.id))
    (hab.omissions.mem_iff.mp homission) hsubject
  refine ⟨first, ?_, hall first (hab.omissions.mem_iff.mpr hmem) hfirstSubject⟩
  rw [omissionDeclaring, if_neg hne]
  exact hfirst

theorem InterruptedDeclared.possible (h : InterruptedDeclared b) (hab : a.SameContent b) :
    OmissionsPossible a := by
  intro u hu hinterrupted
  obtain ⟨unknown, hunknown, hsame⟩ := hab.unknowns.exists_left hu
  have hcode : u.reasonCode = unknown.reasonCode := by rw [hsame.1]
  have hid : u.id = unknown.id := by rw [hsame.1]
  obtain ⟨omission, hdeclaring, hexpandable⟩ := h unknown hunknown (hcode ▸ hinterrupted)
  obtain ⟨hne, hmem, hsubject⟩ := mem_omissionDeclaring hdeclaring
  rw [hid]
  exact ⟨hne, omission, hab.omissions.mem_iff.mpr hmem, hsubject, hexpandable⟩

/-- The omissions with those of one expandability first. -/
def omissionsFirst (expandable : Bool) (omissions : List Omission) : List Omission :=
  omissions.filter (·.expandable = expandable) ++ omissions.filter (¬·.expandable = expandable)

theorem omissionsFirst_perm (expandable : Bool) (omissions : List Omission) :
    (omissionsFirst expandable omissions).Perm omissions := by
  have hperm := filter_append_perm (fun o : Omission => decide (o.expandable = expandable))
    omissions
  simpa [omissionsFirst] using hperm

/-- The omission that answers is then of that expandability, if one about the subject is. -/
theorem find?_omissionsFirst {expandable : Bool} {id : String}
    (h : ∃ o ∈ omissions, o.subject = id ∧ o.expandable = expandable) :
    ∃ o, (omissionsFirst expandable omissions).find? (·.subject = id) = some o ∧
      o.expandable = expandable := by
  obtain ⟨o, ho, hsubject, hexpandable⟩ := h
  obtain ⟨first, hfirst, hmem, -⟩ := exists_find? (p := (·.subject = id))
    (l := omissions.filter (·.expandable = expandable))
    (mem_filter.mpr ⟨ho, decide_eq_true hexpandable⟩) hsubject
  refine ⟨first, ?_, of_decide_eq_true (mem_filter.mp hmem).2⟩
  rw [omissionsFirst, find?_append, hfirst]
  rfl

theorem OmissionsPossible.declared (h : OmissionsPossible a) :
    InterruptedDeclared { a with omissions := omissionsFirst true a.omissions } := by
  intro unknown hunknown hinterrupted
  obtain ⟨hne, hexpandable⟩ := h unknown hunknown hinterrupted
  obtain ⟨first, hfirst, hfirstExpandable⟩ := find?_omissionsFirst hexpandable
  refine ⟨first, ?_, hfirstExpandable⟩
  rw [omissionDeclaring, if_neg hne]
  exact hfirst

theorem not_interruptedDeclared (hpossible : OmissionsPossible a) (h : ¬OmissionsSettled a) :
    ¬InterruptedDeclared { a with omissions := omissionsFirst false a.omissions } := by
  intro hdeclared
  refine h fun unknown hunknown hinterrupted => ?_
  obtain ⟨hne, omission, homission, hsubject, -⟩ := hpossible unknown hunknown hinterrupted
  refine ⟨hne, ⟨omission, homission, hsubject⟩, fun other hother hotherSubject => ?_⟩
  by_contra hclosed
  obtain ⟨first, hfirst, hfirstClosed⟩ := find?_omissionsFirst
    ⟨other, hother, hotherSubject, Bool.not_eq_true _ |>.mp hclosed⟩
  obtain ⟨declaring, hdeclaring, hexpandable⟩ := hdeclared unknown hunknown hinterrupted
  have hsame : first = declaring := by
    rw [omissionDeclaring, if_neg hne] at hdeclaring
    exact Option.some.inj (hfirst.symm.trans hdeclaring)
  rw [hsame, hexpandable] at hfirstClosed
  cases hfirstClosed

end Omissions

section Domains

/-- The universal goals over feasible paths of a conjunction, with their domains. -/
def UniversalOver (term domain : Expression) : Prop :=
  isFeasiblePathsUniversal term = true ∧ ∃ body, term.operands = [domain, body]

/-- A domain without an `and` or `or` to reorder. -/
def Expression.Rigid (e : Expression) : Prop := ∀ e', e.Reorder e' → e' = e

/-- Whichever universal goal comes last, its domain is rigid and the other terms name it. -/
structure DomainSettled (predicate : Expression) : Prop where
  kind : predicate.kind = .and
  universal : ∃ term ∈ predicate.operands, isFeasiblePathsUniversal term = true
  named : ∀ term ∈ predicate.operands, ∀ domain, UniversalOver term domain →
    domain.Rigid ∧
    (∃ t ∈ predicate.operands, sameScope domain t "execution_domain_complete" = true) ∧
    ∃ t ∈ predicate.operands, admitsDomain domain t = true

/-- A call with the operands of a domain, once operands may be reordered. -/
def ScopeUpTo (domain call : Expression) (name : String) : Prop :=
  call.kind = .call ∧ call.text = name ∧
    List.Forall₂ Reorder call.operands domain.operands

def NonemptyUpTo (domain branch : Expression) : Prop :=
  branch.kind = .«exists» ∧ ∃ scope body, branch.operands = [scope, body] ∧
    scope.Reorder domain ∧ body.kind = .bool ∧ body.boolean = true

def AdmitsUpTo (domain term : Expression) : Prop :=
  term.kind = .or ∧ term.operands.length = 2 ∧
    (∃ branch ∈ term.operands, NonemptyUpTo domain branch) ∧
    ∃ branch ∈ term.operands, ScopeUpTo domain branch "entry_infeasible"

/-- Some reordering gives a universal goal and the terms that answer it one domain. -/
structure DomainPossible (predicate : Expression) : Prop where
  kind : predicate.kind = .and
  named : ∃ term ∈ predicate.operands, ∃ domain, UniversalOver term domain ∧
    ∃ shared, domain.Reorder shared ∧
      (∃ t ∈ predicate.operands, ScopeUpTo shared t "execution_domain_complete") ∧
      ∃ t ∈ predicate.operands, AdmitsUpTo shared t

theorem isFeasiblePathsUniversal_iff {term : Expression} :
    isFeasiblePathsUniversal term = true ↔ term.kind = .forAll ∧ ∃ domain body,
      term.operands = [domain, body] ∧ domain.kind = .call ∧ domain.text = "feasible_paths" ∧
        domain.operands.length = 2 := by
  cases term
  unfold isFeasiblePathsUniversal
  constructor
  · intro h
    split at h
    · next domain body hkind hoperands =>
      simp only [Bool.and_eq_true, decide_eq_true_eq] at h
      exact ⟨hkind, domain, body, hoperands, h.1.1, h.1.2, h.2⟩
    · cases h
  · rintro ⟨hkind, domain, body, hoperands, hcall, htext, hlength⟩
    simp only at hkind hoperands
    subst hkind hoperands
    simp [hcall, htext, hlength]

theorem sameScope_iff {domain call : Expression} {name : String} :
    sameScope domain call name = true ↔
      call.kind = .call ∧ call.text = name ∧ call.operands = domain.operands := by
  simp [sameScope, and_assoc]

theorem isNonemptyDomain_iff {domain branch : Expression} :
    isNonemptyDomain domain branch = true ↔ branch.kind = .«exists» ∧ ∃ body,
      branch.operands = [domain, body] ∧ body.kind = .bool ∧ body.boolean = true := by
  cases branch
  unfold isNonemptyDomain
  constructor
  · intro h
    split at h
    · next scope body hkind hoperands =>
      simp only [Bool.and_eq_true, decide_eq_true_eq] at h
      obtain ⟨⟨rfl, hbool⟩, htrue⟩ := h
      exact ⟨hkind, body, hoperands, hbool, htrue⟩
    · cases h
  · rintro ⟨hkind, body, hoperands, hbool, htrue⟩
    simp only at hkind hoperands
    subst hkind hoperands
    simp [hbool, htrue]

theorem admitsDomain_iff {domain term : Expression} : admitsDomain domain term = true ↔
    term.kind = .or ∧ term.operands.length = 2 ∧
      (∃ branch ∈ term.operands, isNonemptyDomain domain branch = true) ∧
      ∃ branch ∈ term.operands, sameScope domain branch "entry_infeasible" = true := by
  simp [admitsDomain, and_assoc]

/-- The argument of a conjunction is decided by its last universal goal. -/
theorem hasExecutionDomainArgument_iff {predicate : Expression} :
    hasExecutionDomainArgument predicate = true ↔ predicate.kind = .and ∧
      ∃ term domain, predicate.operands.reverse.find? isFeasiblePathsUniversal = some term ∧
        UniversalOver term domain ∧
        (∃ t ∈ predicate.operands, sameScope domain t "execution_domain_complete" = true) ∧
        ∃ t ∈ predicate.operands, admitsDomain domain t = true := by
  unfold hasExecutionDomainArgument
  cases hfind : predicate.operands.reverse.find? isFeasiblePathsUniversal with
  | none => simp
  | some term =>
    have huniversal : isFeasiblePathsUniversal term = true := find?_some hfind
    obtain ⟨-, domain, body, hoperands, -⟩ := isFeasiblePathsUniversal_iff.mp huniversal
    simp only [hoperands, Bool.and_eq_true, decide_eq_true_eq, any_eq_true]
    constructor
    · rintro ⟨hkind, hcomplete, hadmits⟩
      exact ⟨hkind, term, domain, rfl, ⟨huniversal, body, hoperands⟩, hcomplete, hadmits⟩
    · rintro ⟨hkind, term', domain', hterm, ⟨-, body', hoperands'⟩, hcomplete, hadmits⟩
      cases hterm
      rw [hoperands] at hoperands'
      cases hoperands'
      exact ⟨hkind, hcomplete, hadmits⟩

end Domains

section Reordered

variable {u u' t t' d d' : Expression} {name : String}

variable {l : List Expression}

theorem forall₂_reorder_pair {x y : Expression} (h : List.Forall₂ Reorder [x, y] l) :
    ∃ x' y', l = [x', y'] ∧ x.Reorder x' ∧ y.Reorder y' := by
  obtain ⟨x', rest, hx, hrest, rfl⟩ := forall₂_cons_left_iff.mp h
  obtain ⟨y', rest', hy, hrest', rfl⟩ := forall₂_cons_left_iff.mp hrest
  rw [forall₂_nil_left_iff.mp hrest']
  exact ⟨x', y', rfl, hx, hy⟩

theorem universalOver_iff : UniversalOver u d ↔ u.kind = .forAll ∧ d.kind = .call ∧
    d.text = "feasible_paths" ∧ d.operands.length = 2 ∧ ∃ body, u.operands = [d, body] := by
  rw [UniversalOver, isFeasiblePathsUniversal_iff]
  constructor
  · rintro ⟨⟨hkind, domain, body, hoperands, hcall⟩, body', hoperands'⟩
    cases hoperands.symm.trans hoperands'
    exact ⟨hkind, hcall.1, hcall.2.1, hcall.2.2, body, hoperands⟩
  · rintro ⟨hkind, hcall, htext, hlength, body, hoperands⟩
    exact ⟨⟨hkind, d, body, hoperands, hcall, htext, hlength⟩, body, hoperands⟩

theorem universalOver_of_universal (h : isFeasiblePathsUniversal u = true) :
    ∃ d, UniversalOver u d := by
  obtain ⟨-, domain, body, hoperands, -⟩ := isFeasiblePathsUniversal_iff.mp h
  exact ⟨domain, h, body, hoperands⟩

/-- Reordering keeps a universal goal one, over a reordered domain. -/
theorem UniversalOver.reorder (h : UniversalOver u d) (hu : u.Reorder u') :
    ∃ d', UniversalOver u' d' ∧ d.Reorder d' := by
  obtain ⟨hkind, hcall, htext, hlength, body, hoperands⟩ := universalOver_iff.mp h
  have hpair := hu.forall₂ (by rw [hkind]; rfl)
  rw [hoperands] at hpair
  obtain ⟨d', body', hoperands', hd, -⟩ := forall₂_reorder_pair hpair
  obtain ⟨hdkind, hdtext, -⟩ := reorder_iff.mp hd
  refine ⟨d', universalOver_iff.mpr ?_, hd⟩
  exact ⟨hu.kind ▸ hkind, hdkind ▸ hcall, hdtext ▸ htext, hd.upToOrder.length_eq ▸ hlength,
    body', hoperands'⟩

theorem UniversalOver.of_reorder (h : UniversalOver u' d') (hu : u.Reorder u') :
    ∃ d, UniversalOver u d ∧ d.Reorder d' := by
  obtain ⟨d, hd, hdd⟩ := h.reorder hu.symm
  exact ⟨d, hd, hdd.symm⟩

theorem scopeUpTo_of_reorder (h : sameScope d t' name = true) (ht : t.Reorder t') :
    ScopeUpTo d t name := by
  obtain ⟨hkind, htext, hoperands⟩ := sameScope_iff.mp h
  obtain ⟨htkind, httext, -⟩ := reorder_iff.mp ht
  have hcall : t.kind = .call := htkind.trans hkind
  refine ⟨hcall, httext.trans htext, hoperands ▸ ht.forall₂ (by rw [hcall]; rfl)⟩

theorem nonemptyUpTo_of_reorder (h : isNonemptyDomain d t' = true) (ht : t.Reorder t') :
    NonemptyUpTo d t := by
  obtain ⟨hkind, body, hoperands, hbool, htrue⟩ := isNonemptyDomain_iff.mp h
  have hpair := ht.symm.forall₂ (by rw [hkind]; rfl)
  rw [hoperands] at hpair
  obtain ⟨scope, body', hoperands', hscope, hbody⟩ := forall₂_reorder_pair hpair
  obtain ⟨hbkind, -, -, hbboolean, -⟩ := reorder_iff.mp hbody
  exact ⟨ht.kind.trans hkind, scope, body', hoperands', hscope.symm, hbkind ▸ hbool,
    hbboolean ▸ htrue⟩

theorem admitsUpTo_of_reorder (h : admitsDomain d t' = true) (ht : t.Reorder t') :
    AdmitsUpTo d t := by
  obtain ⟨hkind, hlength, ⟨x', hx', hnonempty⟩, y', hy', hinfeasible⟩ := admitsDomain_iff.mp h
  obtain ⟨x, hx, hxx⟩ := ht.upToOrder.exists_right hx'
  obtain ⟨y, hy, hyy⟩ := ht.upToOrder.exists_right hy'
  exact ⟨ht.kind.trans hkind, ht.upToOrder.length_eq.trans hlength,
    ⟨x, hx, nonemptyUpTo_of_reorder hnonempty hxx⟩, y, hy, scopeUpTo_of_reorder hinfeasible hyy⟩

/-- An argument made in some order could be made in every one. -/
theorem domainPossible_of_reorder {p p' : Expression} (hp : p.Reorder p')
    (h : hasExecutionDomainArgument p' = true) : DomainPossible p := by
  obtain ⟨hkind, term', d', hfind, huniversal, ⟨x', hx', hcomplete⟩, y', hy', hadmits⟩ :=
    hasExecutionDomainArgument_iff.mp h
  have hmem := mem_reverse.mp (mem_of_find?_eq_some hfind)
  obtain ⟨term, hterm, htt⟩ := hp.upToOrder.exists_right hmem
  obtain ⟨d, hd, hdd⟩ := huniversal.of_reorder htt
  obtain ⟨x, hx, hxx⟩ := hp.upToOrder.exists_right hx'
  obtain ⟨y, hy, hyy⟩ := hp.upToOrder.exists_right hy'
  exact ⟨hp.kind.trans hkind, term, hterm, d, hd, d', hdd,
    ⟨x, hx, scopeUpTo_of_reorder hcomplete hxx⟩, y, hy, admitsUpTo_of_reorder hadmits hyy⟩

end Reordered

section Settled

variable {t d : Expression} {name : String}

variable {operands : List Expression}

theorem Expression.reorder_operands {e : Expression} (hkind : e.kind.commutative = false)
    (h : List.Forall₂ Reorder e.operands operands) : e.Reorder { e with operands := operands } := by
  refine reorder_iff.mpr ⟨rfl, rfl, rfl, rfl, ?_⟩
  rwa [if_neg (by rw [hkind]; decide)]

theorem Expression.Rigid.operands_eq (hd : d.Rigid) (hkind : d.kind.commutative = false)
    (h : List.Forall₂ Reorder d.operands operands) : operands = d.operands :=
  congrArg Expression.operands (hd _ (reorder_operands hkind h))

theorem ScopeUpTo.same (h : ScopeUpTo d t name) (hd : d.Rigid) (hcall : d.kind = .call) :
    sameScope d t name = true := by
  obtain ⟨hkind, htext, hoperands⟩ := h
  have hpairs := hoperands.flip.imp fun _ _ hreorder => Reorder.symm hreorder
  exact sameScope_iff.mpr ⟨hkind, htext, hd.operands_eq (by rw [hcall]; rfl) hpairs⟩

theorem NonemptyUpTo.same (h : NonemptyUpTo d t) (hd : d.Rigid) : isNonemptyDomain d t = true := by
  obtain ⟨hkind, scope, body, hoperands, hscope, hbody⟩ := h
  rw [hd scope hscope.symm] at hoperands
  exact isNonemptyDomain_iff.mpr ⟨hkind, body, hoperands, hbody⟩

theorem AdmitsUpTo.same (h : AdmitsUpTo d t) (hd : d.Rigid) (hcall : d.kind = .call) :
    admitsDomain d t = true := by
  obtain ⟨hkind, hlength, ⟨x, hx, hnonempty⟩, y, hy, hinfeasible⟩ := h
  exact admitsDomain_iff.mpr
    ⟨hkind, hlength, ⟨x, hx, hnonempty.same hd⟩, y, hy, hinfeasible.same hd hcall⟩

/-- A settled argument is made in every order. -/
theorem DomainSettled.argued {p p' : Expression} (h : DomainSettled p) (hp : p.Reorder p') :
    hasExecutionDomainArgument p' = true := by
  obtain ⟨term, hterm, huniversal⟩ := h.universal
  obtain ⟨domain, hdomain⟩ := universalOver_of_universal huniversal
  obtain ⟨term', hterm', htt⟩ := hp.upToOrder.exists_left hterm
  obtain ⟨domain', hdomain', -⟩ := hdomain.reorder htt
  obtain ⟨last', hlast'⟩ := Option.isSome_iff_exists.mp
    (find?_isSome.mpr ⟨term', mem_reverse.mpr hterm', hdomain'.1⟩)
  obtain ⟨d', hd'⟩ := universalOver_of_universal (find?_some hlast')
  obtain ⟨last, hlast, hll⟩ :=
    hp.upToOrder.exists_right (mem_reverse.mp (mem_of_find?_eq_some hlast'))
  obtain ⟨d, hd, hdd⟩ := hd'.of_reorder hll
  obtain ⟨hrigid, ⟨x, hx, hcomplete⟩, y, hy, hadmits⟩ := h.named last hlast d hd
  rw [hrigid d' hdd] at hd'
  obtain ⟨x', hx', hxx⟩ := hp.upToOrder.exists_left hx
  obtain ⟨y', hy', hyy⟩ := hp.upToOrder.exists_left hy
  have hcall := (universalOver_iff.mp hd).2.1
  exact hasExecutionDomainArgument_iff.mpr ⟨hp.kind ▸ h.kind, last', d, hlast', hd',
    ⟨x', hx', (scopeUpTo_of_reorder hcomplete hxx.symm).same hrigid hcall⟩, y', hy',
    (admitsUpTo_of_reorder hadmits hyy.symm).same hrigid hcall⟩

end Settled

section Rearranging

/-- A conjunction with its terms replaced and one of them moved to the end. -/
def withLast (p : Expression) (f : Expression → Expression) (last : Expression) : Expression :=
  { p with operands := (p.operands.map f).erase last ++ [last] }

variable {p last d : Expression} {f : Expression → Expression}

theorem withLast_perm (hlast : last ∈ p.operands.map f) :
    (p.operands.map f).Perm (withLast p f last).operands :=
  (List.perm_cons_erase hlast).trans (List.perm_append_singleton _ _).symm

theorem reorder_withLast (hkind : p.kind = .and) (hf : ∀ t ∈ p.operands, t.Reorder (f t))
    (hlast : last ∈ p.operands.map f) : p.Reorder (withLast p f last) := by
  refine reorder_iff.mpr ⟨rfl, rfl, rfl, rfl, ?_⟩
  rw [if_pos (by rw [hkind]; rfl)]
  refine ⟨p.operands.map f, ?_, withLast_perm hlast⟩
  exact forall₂_map_right_iff.mpr (forall₂_same.mpr hf)

theorem find?_withLast (hlast : isFeasiblePathsUniversal last = true) :
    (withLast p f last).operands.reverse.find? isFeasiblePathsUniversal = some last := by
  simp [withLast, hlast]

theorem argued_withLast_iff (hkind : p.kind = .and) (hlast : last ∈ p.operands.map f)
    (hd : UniversalOver last d) : hasExecutionDomainArgument (withLast p f last) = true ↔
      (∃ t ∈ p.operands, sameScope d (f t) "execution_domain_complete" = true) ∧
        ∃ t ∈ p.operands, admitsDomain d (f t) = true := by
  have hmem : ∀ {P : Expression → Prop},
      (∃ t ∈ (withLast p f last).operands, P t) ↔ ∃ t ∈ p.operands, P (f t) := by
    intro P
    constructor
    · rintro ⟨t, ht, hP⟩
      obtain ⟨x, hx, rfl⟩ := mem_map.mp ((withLast_perm hlast).mem_iff.mpr ht)
      exact ⟨x, hx, hP⟩
    · rintro ⟨x, hx, hP⟩
      exact ⟨f x, (withLast_perm hlast).mem_iff.mp (mem_map_of_mem hx), hP⟩
  rw [hasExecutionDomainArgument_iff]
  constructor
  · rintro ⟨-, term, domain, hfind, ⟨-, body, hoperands⟩, hargument⟩
    rw [find?_withLast hd.1] at hfind
    cases hfind
    obtain ⟨-, body', hoperands'⟩ := hd
    rw [hoperands] at hoperands'
    cases hoperands'
    exact ⟨hmem.mp hargument.1, hmem.mp hargument.2⟩
  · rintro ⟨hcomplete, hadmits⟩
    exact ⟨hkind, last, d, find?_withLast hd.1, hd,
      (hmem (P := fun t => sameScope d t "execution_domain_complete" = true)).mpr hcomplete,
      (hmem (P := fun t => admitsDomain d t = true)).mpr hadmits⟩

/-- Where an argument is not settled, some order breaks it. -/
theorem exists_unargued (h : ¬DomainSettled p) :
    ∃ p', p.Reorder p' ∧ hasExecutionDomainArgument p' = false := by
  by_cases hargued : hasExecutionDomainArgument p = true
  case neg => exact ⟨p, p.reorder_refl, Bool.not_eq_true _ |>.mp hargued⟩
  obtain ⟨hkind, last, domain, hfind, huniversal, -⟩ := hasExecutionDomainArgument_iff.mp hargued
  have hmem := mem_reverse.mp (mem_of_find?_eq_some hfind)
  have hbad : ∃ term ∈ p.operands, ∃ domain, UniversalOver term domain ∧ ¬(domain.Rigid ∧
      (∃ t ∈ p.operands, sameScope domain t "execution_domain_complete" = true) ∧
      ∃ t ∈ p.operands, admitsDomain domain t = true) := by
    by_contra hnone
    refine h ⟨hkind, ⟨last, hmem, huniversal.1⟩, fun term hterm domain hdomain => ?_⟩
    by_contra hfails
    exact hnone ⟨term, hterm, domain, hdomain, hfails⟩
  obtain ⟨term, hterm, d, hd, hfails⟩ := hbad
  by_cases hrigid : d.Rigid
  · -- the terms do not name this domain, so it only has to come last
    have hlast : term ∈ p.operands.map id := by rwa [map_id]
    refine ⟨withLast p id term, reorder_withLast hkind (fun t _ => t.reorder_refl) hlast, ?_⟩
    rw [← Bool.not_eq_true, argued_withLast_iff hkind hlast hd]
    exact fun hboth => hfails ⟨hrigid, hboth⟩
  · -- the domain has another order, which the terms that name it can take
    obtain ⟨d', hdd, hne⟩ : ∃ d', d.Reorder d' ∧ d' ≠ d := by
      simpa [Rigid] using hrigid
    obtain ⟨hforAll, hcall, -⟩ := universalOver_iff.mp hd
    have hoperands : d'.operands ≠ d.operands := by
      intro heq
      obtain ⟨hk, ht, hi, hb, -⟩ := reorder_iff.mp hdd
      apply hne
      cases d
      cases d'
      simp_all
    let f : Expression → Expression := fun t =>
      if sameScope d t "execution_domain_complete" then { t with operands := d'.operands } else t
    have hreorder : ∀ t ∈ p.operands, t.Reorder (f t) := by
      intro t _
      by_cases hscope : sameScope d t "execution_domain_complete" = true
      · obtain ⟨htkind, -, htoperands⟩ := sameScope_iff.mp hscope
        simp only [f, hscope, if_true]
        refine reorder_operands (by rw [htkind]; rfl) ?_
        rw [htoperands]
        exact hdd.forall₂ (by rw [hcall]; rfl)
      · simp only [f, hscope]
        exact t.reorder_refl
    have hfixed : f term = term := by
      have hother : sameScope d term "execution_domain_complete" = false := by
        simp [sameScope, hforAll]
      simp [f, hother]
    have hlast : term ∈ p.operands.map f := mem_map.mpr ⟨term, hterm, hfixed⟩
    refine ⟨withLast p f term, reorder_withLast hkind hreorder hlast, ?_⟩
    rw [← Bool.not_eq_true, argued_withLast_iff hkind hlast hd]
    rintro ⟨⟨t, -, hscope⟩, -⟩
    by_cases hsame : sameScope d t "execution_domain_complete" = true
    · simp only [f, hsame, if_true] at hscope
      exact hoperands (sameScope_iff.mp hscope).2.2
    · simp only [f, hsame] at hscope
      exact hsame hscope

/-- One term replaced by a reordering of it. -/
theorem reorder_update {x x' : Expression} (hf : ∀ e : Expression, e.Reorder (f e))
    (hx : x.Reorder x') (e : Expression) : e.Reorder (update f x x' e) := by
  by_cases hex : e = x
  · rwa [hex, update_self]
  · rw [update_of_ne hex]
    exact hf e

/-- A call that names a domain up to reordering can name it exactly. -/
theorem ScopeUpTo.reorder {t : Expression} {name : String} (h : ScopeUpTo d t name) :
    ∃ t', t.Reorder t' ∧ sameScope d t' name = true := by
  obtain ⟨hkind, htext, hoperands⟩ := h
  exact ⟨{ t with operands := d.operands }, reorder_operands (by rw [hkind]; rfl) hoperands,
    sameScope_iff.mpr ⟨hkind, htext, rfl⟩⟩

theorem NonemptyUpTo.reorder {t : Expression} (h : NonemptyUpTo d t) :
    ∃ t', t.Reorder t' ∧ isNonemptyDomain d t' = true := by
  obtain ⟨hkind, scope, body, hoperands, hscope, hbool, htrue⟩ := h
  refine ⟨{ t with operands := [d, body] }, reorder_operands (by rw [hkind]; rfl) ?_,
    isNonemptyDomain_iff.mpr ⟨hkind, body, rfl, hbool, htrue⟩⟩
  rw [hoperands]
  exact .cons hscope (.cons body.reorder_refl .nil)

theorem AdmitsUpTo.reorder {t : Expression} (h : AdmitsUpTo d t) :
    ∃ t', t.Reorder t' ∧ admitsDomain d t' = true := by
  obtain ⟨hkind, hlength, ⟨x, hx, hnonempty⟩, y, hy, hinfeasible⟩ := h
  obtain ⟨x', hxx, hx'⟩ := hnonempty.reorder
  obtain ⟨y', hyy, hy'⟩ := hinfeasible.reorder
  -- one branch is a quantifier and the other a call, so they can be replaced one by one
  have hxy : y ≠ x := by
    rintro rfl
    cases hnonempty.1.symm.trans hinfeasible.1
  let f : Expression → Expression := update (update id y y') x x'
  have hfx : f x = x' := by simp [f]
  have hfy : f y = y' := by simp [f, hxy]
  refine ⟨{ t with operands := t.operands.map f }, ?_, admitsDomain_iff.mpr ⟨hkind, ?_, ?_, ?_⟩⟩
  · refine reorder_iff.mpr ⟨rfl, rfl, rfl, rfl, ?_⟩
    rw [if_pos (by rw [hkind]; rfl)]
    refine ⟨t.operands.map f, forall₂_map_right_iff.mpr (forall₂_same.mpr ?_), .refl _⟩
    exact fun e _ => reorder_update (reorder_update reorder_refl hyy) hxx e
  · rwa [length_map]
  · exact ⟨f x, mem_map_of_mem hx, hfx ▸ hx'⟩
  · exact ⟨f y, mem_map_of_mem hy, hfy ▸ hy'⟩

/-- Where an argument is possible, some order makes it. -/
theorem DomainPossible.exists_argued (h : DomainPossible p) :
    ∃ p', p.Reorder p' ∧ hasExecutionDomainArgument p' = true := by
  obtain ⟨hkind, u, hu, domain, huniversal, d, hdd, ⟨x, hx, hscope⟩, y, hy, hadmits⟩ := h
  obtain ⟨x', hxx, hx'⟩ := hscope.reorder
  obtain ⟨y', hyy, hy'⟩ := hadmits.reorder
  obtain ⟨hforAll, hcall, htext, hlength, body, hoperands⟩ := universalOver_iff.mp huniversal
  let u' : Expression := { u with operands := [d, body] }
  have huu : u.Reorder u' := by
    refine reorder_operands (by rw [hforAll]; rfl) ?_
    rw [hoperands]
    exact .cons hdd (.cons body.reorder_refl .nil)
  have hu' : UniversalOver u' d := by
    obtain ⟨hdkind, hdtext, -⟩ := reorder_iff.mp hdd
    exact universalOver_iff.mpr ⟨hforAll, hdkind ▸ hcall, hdtext ▸ htext,
      hdd.upToOrder.length_eq ▸ hlength, body, rfl⟩
  have hxu : x ≠ u := by
    rintro rfl
    cases hscope.1.symm.trans hforAll
  have hyu : y ≠ u := by
    rintro rfl
    cases hadmits.1.symm.trans hforAll
  have hyx : y ≠ x := by
    rintro rfl
    cases hadmits.1.symm.trans hscope.1
  let f : Expression → Expression :=
    update (update (update id y y') x x') u u'
  have hfu : f u = u' := by simp [f]
  have hfx : f x = x' := by simp [f, hxu]
  have hfy : f y = y' := by simp [f, hyu, hyx]
  have hlast : u' ∈ p.operands.map f := mem_map.mpr ⟨u, hu, hfu⟩
  refine ⟨withLast p f u', reorder_withLast hkind (fun e _ => ?_) hlast,
    (argued_withLast_iff hkind hlast hu').mpr ⟨⟨x, hx, hfx ▸ hx'⟩, y, hy, hfy ▸ hy'⟩⟩
  exact reorder_update (reorder_update (reorder_update reorder_refl hyy) hxx) huu e

end Rearranging

section Verdict

variable {a b : EvidenceCase}

/-- A verified safe case has a proof whose argument no order breaks. -/
def DomainsSettled (value : EvidenceCase) : Prop :=
  value.verificationState = .verifiedSafe → ∃ obligation ∈ value.proofObligations,
    obligation.isProvedGoal ∧ DomainSettled obligation.predicate

/-- A verified safe case has a proof whose argument some order makes. -/
def DomainsPossible (value : EvidenceCase) : Prop :=
  value.verificationState = .verifiedSafe → ∃ obligation ∈ value.proofObligations,
    obligation.isProvedGoal ∧ DomainPossible obligation.predicate

theorem ProofObligation.SameContent.isProvedGoal {x y : ProofObligation} (h : x.SameContent y) :
    x.isProvedGoal = y.isProvedGoal := by
  rw [h.1]
  rfl

theorem DomainsSettled.argued (h : DomainsSettled a) (hab : a.SameContent b) : DomainArgued b := by
  intro hsafe
  obtain ⟨x, hx, hproved, hsettled⟩ := h (hab.verificationState ▸ hsafe)
  obtain ⟨y, hy, hxy⟩ := hab.proofObligations.exists_left hx
  exact ⟨y, hy, hxy.isProvedGoal ▸ hproved, hsettled.argued hxy.2.1⟩

theorem DomainArgued.possible (h : DomainArgued b) (hab : a.SameContent b) : DomainsPossible a := by
  intro hsafe
  obtain ⟨y, hy, hproved, hargued⟩ := h (hab.verificationState ▸ hsafe)
  obtain ⟨x, hx, hxy⟩ := hab.proofObligations.exists_right hy
  exact ⟨x, hx, hxy.isProvedGoal ▸ hproved, domainPossible_of_reorder hxy.2.1 hargued⟩

theorem upToOrder_refl {α : Type} {R : α → α → Prop} (hR : ∀ x, R x x) (l : List α) :
    UpToOrder R l l :=
  ⟨l, List.forall₂_same.mpr fun x _ => hR x, .refl _⟩

variable {obligations : List ProofObligation}

theorem upToOrder_obligations :
    UpToOrder ProofObligation.SameContent obligations obligations :=
  upToOrder_refl (fun _ => ⟨rfl, reorder_refl _, reorder_refl _, .refl _⟩) _

/-- A case with reordered omissions and obligations has the same content. -/
theorem sameContent_update (homissions : a.omissions.Perm omissions)
    (hobligations : UpToOrder ProofObligation.SameContent a.proofObligations obligations) :
    a.SameContent { a with omissions := omissions, proofObligations := obligations } where
  schemaVersion := rfl
  level := rfl
  verificationState := rfl
  program := ⟨rfl, .refl _⟩
  primaryClaim := ⟨rfl, reorder_refl _⟩
  entities := upToOrder_refl
    (fun _ => ⟨rfl, List.forall₂_same.mpr fun p _ => ⟨rfl, p.2.reorder_refl⟩⟩) _
  edges := .refl _
  paths := upToOrder_refl (fun _ => ⟨rfl, upToOrder_refl reorder_refl _⟩) _
  facts := upToOrder_refl (fun _ => ⟨rfl, reorder_refl _⟩) _
  assumptions := upToOrder_refl (fun _ => ⟨rfl, reorder_refl _⟩) _
  hypotheses := upToOrder_refl (fun _ => ⟨rfl, reorder_refl _⟩) _
  unknowns := upToOrder_refl (fun _ => ⟨rfl, reorder_refl _, .refl _⟩) _
  constraints := upToOrder_refl (fun _ => ⟨rfl, reorder_refl _⟩) _
  provenance := upToOrder_refl (fun _ => ⟨rfl, .refl _⟩) _
  proofObligations := hobligations
  summaries := upToOrder_refl (fun _ => ⟨rfl, .refl _⟩) _
  dependencies := .refl _
  omissions := homissions

theorem EvidenceCase.sameContent_refl (value : EvidenceCase) : value.SameContent value :=
  sameContent_update (.refl _) upToOrder_obligations

/-- Obligations with reordered goals. -/
theorem upToOrder_goals {goal : Expression → Expression}
    (hgoal : ∀ e : Expression, e.Reorder (goal e)) :
    UpToOrder ProofObligation.SameContent obligations
      (obligations.map fun x => { x with predicate := goal x.predicate }) := by
  refine ⟨_, forall₂_map_right_iff.mpr (forall₂_same.mpr fun x _ => ?_), .refl _⟩
  exact ⟨rfl, hgoal x.predicate, reorder_refl _, .refl _⟩

/-- Goals can be reordered at once so that the possible arguments are made. -/
theorem DomainsPossible.exists_argued (h : DomainsPossible a) : ∃ obligations,
    UpToOrder ProofObligation.SameContent a.proofObligations obligations ∧
      ∀ omissions, DomainArgued
        { a with omissions := omissions, proofObligations := obligations } := by
  have hgoal : ∀ e : Expression, ∃ e', e.Reorder e' ∧
      (DomainPossible e → hasExecutionDomainArgument e' = true) := by
    intro e
    by_cases hpossible : DomainPossible e
    · obtain ⟨e', hreorder, hargued⟩ := hpossible.exists_argued
      exact ⟨e', hreorder, fun _ => hargued⟩
    · exact ⟨e, e.reorder_refl, fun h => absurd h hpossible⟩
  choose goal hreorder hargued using hgoal
  refine ⟨_, upToOrder_goals hreorder, fun omissions hsafe => ?_⟩
  obtain ⟨x, hx, hproved, hpossible⟩ := h hsafe
  exact ⟨_, mem_map_of_mem hx, hproved, hargued _ hpossible⟩

/-- Goals can be reordered at once so that every unsettled argument is broken. -/
theorem exists_unargued_case (h : ¬DomainsSettled a) : ∃ obligations,
    UpToOrder ProofObligation.SameContent a.proofObligations obligations ∧
      ∀ omissions, ¬DomainArgued
        { a with omissions := omissions, proofObligations := obligations } := by
  have hgoal : ∀ e : Expression, ∃ e', e.Reorder e' ∧
      (¬DomainSettled e → hasExecutionDomainArgument e' = false) := by
    intro e
    by_cases hsettled : DomainSettled e
    · exact ⟨e, e.reorder_refl, fun h => absurd hsettled h⟩
    · obtain ⟨e', hreorder, hunargued⟩ := exists_unargued hsettled
      exact ⟨e', hreorder, fun _ => hunargued⟩
  choose goal hreorder hunargued using hgoal
  refine ⟨_, upToOrder_goals hreorder, fun omissions hargued => h fun hsafe => ?_⟩
  obtain ⟨y, hy, hproved, hy'⟩ := hargued hsafe
  obtain ⟨x, hx, rfl⟩ := mem_map.mp hy
  refine ⟨x, hx, hproved, ?_⟩
  by_contra hunsettled
  rw [hunargued _ hunsettled] at hy'
  cases hy'

/-- Equal bytes mean equal content, in both directions. -/
theorem sameContent_of_bytes (hfits : (canonicalEvidenceBytes a).length < 2 ^ 64)
    (h : canonicalEvidenceBytes a = canonicalEvidenceBytes b) :
    a.SameContent b ∧ b.SameContent a := by
  have hfits' : (canonicalEvidenceBytes b).length < 2 ^ 64 := h ▸ hfits
  exact ⟨sameContent_of_value (CanonicalValue.encode_inj h hfits),
    sameContent_of_value (CanonicalValue.encode_inj h.symm hfits')⟩

/-- The verdict on a case is the verdict on every case with its bytes exactly when the case breaks a
rule that reads no order, or no order changes the two that do. -/
theorem verdict_order_free_iff (hfits : (canonicalEvidenceBytes a).length < 2 ^ 64) :
    (∀ b, canonicalEvidenceBytes a = canonicalEvidenceBytes b →
      (validateEvidenceCase a = [] ↔ validateEvidenceCase b = [])) ↔
    (WellFormed a → OmissionsSettled a ∧ DomainsSettled a ∨ ¬OmissionsPossible a ∨
      ¬DomainsPossible a) := by
  simp only [validateEvidenceCase_eq_nil]
  constructor
  · intro hall hwell
    by_cases homissions : OmissionsPossible a
    case neg => exact .inr (.inl homissions)
    by_cases hdomains : DomainsPossible a
    case neg => exact .inr (.inr hdomains)
    obtain ⟨argued, hargued, hdomain⟩ := hdomains.exists_argued
    -- some order is accepted, so all orders are
    have hgood := sameContent_update (omissionsFirst_perm true a.omissions).symm hargued
    have hvalid := (hall _ hgood.encode).mpr ⟨hwell.transfer hgood, homissions.declared, hdomain _⟩
    refine .inl ⟨?_, ?_⟩
    · by_contra hunsettled
      have hbad := sameContent_update (omissionsFirst_perm false a.omissions).symm
        upToOrder_obligations
      exact not_interruptedDeclared homissions hunsettled ((hall _ hbad.encode).mp hvalid).2.1
    · by_contra hunsettled
      obtain ⟨broken, hbroken, hunargued⟩ := exists_unargued_case hunsettled
      have hbad := sameContent_update (.refl a.omissions) hbroken
      exact hunargued _ ((hall _ hbad.encode).mp hvalid).2.2
  · intro hcondition b hbytes
    obtain ⟨hab, hba⟩ := sameContent_of_bytes hfits hbytes
    have hrefl := a.sameContent_refl
    by_cases hwell : WellFormed a
    case neg => exact ⟨fun h => absurd h.1 hwell, fun h => absurd (h.1.transfer hba) hwell⟩
    rcases hcondition hwell with ⟨homissions, hdomains⟩ | hnever | hnever
    · exact ⟨fun _ => ⟨hwell.transfer hab, homissions.declared hab, hdomains.argued hab⟩,
        fun _ => ⟨hwell, homissions.declared hrefl, hdomains.argued hrefl⟩⟩
    · exact ⟨fun h => absurd (h.2.1.possible hrefl) hnever,
        fun h => absurd (h.2.1.possible hab) hnever⟩
    · exact ⟨fun h => absurd (h.2.2.possible hrefl) hnever,
        fun h => absurd (h.2.2.possible hab) hnever⟩

def interruptedRun : StableId := ⟨.analysisRun, String.ofList (List.replicate 64 '0')⟩

/-- A case with one query that timed out, under the given omissions. -/
def interruptedCase (omissions : List Omission) : EvidenceCase where
  evidenceId := none
  schemaVersion := "eir.v1"
  level := .l1
  program := ⟨"repository", "revision", "variant", "triple", "configuration", "layout",
    some interruptedRun, []⟩
  primaryClaim := ⟨"C", .bufferOverflow, "E", {}, .high, ""⟩
  entities := [⟨"E", .value, none, ⟨[], .nil⟩⟩]
  edges := []
  paths := []
  facts := []
  assumptions := []
  hypotheses := []
  unknowns := [⟨"U", { kind := .symbol, text := "length" }, .analysisTimeout, "", [], ""⟩]
  constraints := []
  provenance := [⟨"P", queryCompletionProducerId, queryCompletionRuleId, [], "",
    some interruptedRun, "", ""⟩]
  proofObligations := []
  summaries := []
  dependencies := []
  verificationState := .unreviewed
  omissions := omissions

/-- One expandable omission about the query settles the verdict. -/
theorem settled_case_verdict :
    (canonicalEvidenceBytes (interruptedCase [⟨"O", "", "U", "", true⟩])).length < 2 ^ 64 ∧
      ∀ b, canonicalEvidenceBytes (interruptedCase [⟨"O", "", "U", "", true⟩]) =
          canonicalEvidenceBytes b →
        (validateEvidenceCase (interruptedCase [⟨"O", "", "U", "", true⟩]) = [] ↔
          validateEvidenceCase b = []) := by
  have hfits : (canonicalEvidenceBytes (interruptedCase [⟨"O", "", "U", "", true⟩])).length <
      2 ^ 64 := by
    rw [canonicalEvidenceBytes, CanonicalValue.length_encode]
    decide +kernel
  refine ⟨hfits, (verdict_order_free_iff hfits).mpr fun _ => .inl ⟨?_, fun h => by cases h⟩⟩
  intro unknown hunknown _
  rw [mem_singleton.mp hunknown]
  simp [interruptedCase]

/-- A second omission that is not expandable: with the same bytes, the case is accepted in one order
and refused in the other. -/
theorem omission_order_changes_verdict :
    canonicalEvidenceBytes (interruptedCase [⟨"O", "", "U", "", true⟩, ⟨"N", "", "U", "", false⟩]) =
      canonicalEvidenceBytes
        (interruptedCase [⟨"N", "", "U", "", false⟩, ⟨"O", "", "U", "", true⟩]) ∧
    validateEvidenceCase
      (interruptedCase [⟨"O", "", "U", "", true⟩, ⟨"N", "", "U", "", false⟩]) = [] ∧
    validateEvidenceCase (interruptedCase [⟨"N", "", "U", "", false⟩, ⟨"O", "", "U", "", true⟩]) =
      [⟨.hiddenOmission, "U",
        "omission 'N' withholds interrupted query 'U' as non-expandable"⟩] := by
  refine ⟨?_, by decide +kernel, by decide +kernel⟩
  exact (sameContent_update (.swap _ _ _) upToOrder_obligations).encode

end Verdict

end Veritas.Evidence
