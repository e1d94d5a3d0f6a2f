import Veritas.Facts.Witness
import Veritas.Library.Interner
import Veritas.Library.Relaxation

/-! `ResultCanonicalizer`: a raw evaluation is grounded and one proof is kept for each result. -/
namespace Veritas

open Hypergraph Relaxation

structure CanonicalizationRequest where
  localRoots : List RootedInputFact
  successorRoots : List RootedInputFact
  /-- Null when there is nothing to canonicalize. -/
  evaluation : Option RawWpaEvaluation

structure CanonicalizedResult where
  facts : List AnalysisFact
  witnesses : List WitnessEdge
  fixpointHash : String
  externalHash : String
  diagnostics : List String

structure CanonicalResultHashes where
  fixpointHash : String
  externalHash : String
  deriving DecidableEq

/-- Results and inputs of edges by row, then rule, ordinal and input, as ranks. -/
abbrev WitnessOrder := ℕ ×ₗ ℕ ×ₗ ℕ ×ₗ ℕ

def witnessOrder (result rule ordinal input : ℕ) : WitnessOrder :=
  toLex (result, toLex (rule, toLex (ordinal, input)))

def internAll (keys : List String) : Interner String :=
  keys.foldl (fun t k => (t.intern k).1) Interner.empty

/-- The rank of a key that has been interned. -/
def rankOf (t : Interner String) (key : String) : ℕ := ((t.find key).map t.rank).getD 0

def keyOfRank (t : Interner String) (rank : ℕ) : String := t.sorted.getD rank ""

def appendFields (fields : List String) : String := FieldCode.concat FieldCode.field fields

def computeCanonicalResultHashes (sha256 : String → String) (facts : List AnalysisFact)
    (witnesses : List WitnessEdge) : CanonicalResultHashes :=
  let rows := internAll (facts.map (encodeSemanticKey ·.row) ++ witnesses.flatMap fun edge =>
    [encodeSemanticKey edge.result, encodeSemanticKey edge.input])
  let labels := internAll (witnesses.map (·.ruleId))
  let factRanks := (facts.map fun fact => rankOf rows (encodeSemanticKey fact.row)).insertionSort
    (· ≤ ·)
  let witnessRanks := (witnesses.map fun edge =>
    witnessOrder (rankOf rows (encodeSemanticKey edge.result)) (rankOf labels edge.ruleId)
      edge.inputOrdinal (rankOf rows (encodeSemanticKey edge.input))).insertionSort (· ≤ ·)
  let externalHash := sha256 (appendFields
    ("veritas.wpa.external.v1" :: factRanks.map (keyOfRank rows)))
  let fixpointHash := sha256 (appendFields
    ("veritas.wpa.fixpoint.v1" :: externalHash :: witnessRanks.flatMap fun edge =>
      [keyOfRank rows (ofLex edge).1, keyOfRank labels (ofLex (ofLex edge).2).1,
        keyOfRank rows (ofLex (ofLex (ofLex edge).2).2).2,
        (ofLex (ofLex (ofLex edge).2).2).1.repr]))
  ⟨fixpointHash, externalHash⟩

/-- Interned rows, and which of them are roots and which results. -/
structure RowIndex where
  rows : Interner String
  rootRows : ℕ → Option SemanticRow
  resultRows : ℕ → Option SemanticRow
  resultRowIds : List ℕ

def RowIndex.empty : RowIndex := ⟨.empty, fun _ => none, fun _ => none, []⟩

/-- A repeated root keeps the first row. -/
def RowIndex.addRoot (ix : RowIndex) (root : RootedInputFact) : StatusOr RowIndex := do
  validateSemanticRow root.fact.row
  let interned := ix.rows.intern (encodeSemanticKey root.fact.row)
  if (ix.rootRows interned.2).isSome then return { ix with rows := interned.1 }
  else return { ix with
    rows := interned.1
    rootRows := Function.update ix.rootRows interned.2 (some root.fact.row) }

def RowIndex.addResult (ix : RowIndex) (row : SemanticRow) : StatusOr RowIndex := do
  validateSemanticRow row
  let interned := ix.rows.intern (encodeSemanticKey row)
  if (ix.resultRows interned.2).isSome then return { ix with rows := interned.1 }
  else return { ix with
    rows := interned.1
    resultRows := Function.update ix.resultRows interned.2 (some row)
    resultRowIds := ix.resultRowIds ++ [interned.2] }

def indexRows (roots : List RootedInputFact) (results : List SemanticRow) : StatusOr RowIndex := do
  let ix ← roots.foldlM RowIndex.addRoot .empty
  results.foldlM RowIndex.addResult ix

/-- One rule applied to an ordered argument list, over names for rows and labels. Its cost is
kept beside the list, by index. -/
structure Derivation (ρ lbl : Type) where
  result : ρ
  rule : lbl
  derivation : lbl
  spec : RuleSpec
  /-- Ordinal and input row, ascending by ordinal; one input may occupy two ordinals. -/
  inputs : List (ℕ × ρ)

/-- Rows and labels are interned ids while the fold runs. -/
structure DerivationFold where
  labels : Interner String
  derivations : List (Derivation ℕ ℕ)

def RowIndex.publishedResult (ix : RowIndex) (row : SemanticRow) : StatusOr ℕ :=
  match ix.rows.find (encodeSemanticKey row) with
  | some id =>
    if (ix.resultRows id).isSome then .ok id
    else .error (.invalidArgument "witness names a result that was not published")
  | none => .error (.invalidArgument "witness names a result that was not published")

def derivingRule (edge : WitnessEdge) : StatusOr RuleSpec :=
  match findRule edge.ruleId with
  | none => .error (.invalidArgument "witness names an unregistered rule")
  | some rule =>
    if rule.result ≠ edge.result.relation then
      .error (.invalidArgument "witness rule does not derive this relation")
    else .ok rule

def RowIndex.citedInput (ix : RowIndex) (row : SemanticRow) : StatusOr ℕ :=
  match ix.rows.find (encodeSemanticKey row) with
  | some id =>
    if (ix.rootRows id).isSome ∨ (ix.resultRows id).isSome then .ok id
    else .error (.invalidArgument "witness cites an input that is neither a root nor a result")
  | none =>
    .error (.invalidArgument "witness cites an input that is neither a root nor a result")

section Bind

variable {ρ lbl : Type} [DecidableEq ρ] [DecidableEq lbl]

/-- Two inputs at one ordinal are an engine defect; an entry goes before the first larger one. -/
def bindInput (inputs : List (ℕ × ρ)) (ordinal : ℕ) (input : ρ) : StatusOr (List (ℕ × ρ)) :=
  match inputs.find? (·.1 = ordinal) with
  | some slot =>
    if slot.2 ≠ input then .error (.invalidArgument "witness binds two inputs at one ordinal")
    else .ok inputs
  | none => .ok (inputs.takeWhile (¬ ·.1 > ordinal) ++
      (ordinal, input) :: inputs.dropWhile (¬ ·.1 > ordinal))

/-- The triple that identifies a firing while the fold builds it. -/
def Derivation.key (d : Derivation ρ lbl) : ρ × lbl × lbl := (d.result, d.rule, d.derivation)

/-- The entry of this firing, made if there is none yet, takes one more input. -/
def bindDerivation (derivations : List (Derivation ρ lbl)) (fresh : Derivation ρ lbl)
    (ordinal : ℕ) (input : ρ) : StatusOr (List (Derivation ρ lbl)) :=
  let derivations :=
    if fresh.key ∈ derivations.map (·.key) then derivations else derivations ++ [fresh]
  derivations.mapM fun d =>
    if d.key = fresh.key then do return { d with inputs := ← bindInput d.inputs ordinal input }
    else return d

end Bind

def addEdge (ix : RowIndex) (acc : DerivationFold) (edge : WitnessEdge) :
    StatusOr DerivationFold := do
  let result ← ix.publishedResult edge.result
  let rule ← derivingRule edge
  validateSemanticRow edge.input
  let input ← ix.citedInput edge.input
  let ruleLabel := acc.labels.intern edge.ruleId
  let derivationLabel := ruleLabel.1.intern edge.derivationKey
  let derivations ← bindDerivation acc.derivations
    ⟨result, ruleLabel.2, derivationLabel.2, rule, []⟩ edge.inputOrdinal input
  return ⟨derivationLabel.1, derivations⟩

/-- Labels become ranks, and derivations are read by result, rule and firing key. -/
def rankDerivations (ix : RowIndex) (acc : DerivationFold) : List (Derivation ℕ ℕ) :=
  let ranked := acc.derivations.map fun d =>
    { d with rule := acc.labels.rank d.rule, derivation := acc.labels.rank d.derivation }
  let sortKey (d : Derivation ℕ ℕ) : ℕ ×ₗ ℕ ×ₗ ℕ :=
    toLex (ix.rows.rank d.result, toLex (d.rule, d.derivation))
  ranked.insertionSort fun a b => sortKey a ≤ sortKey b

/-- The input ordinals are exactly those below the rule's arity. -/
def checkArity {ρ lbl : Type} (d : Derivation ρ lbl) : StatusOr Unit :=
  if d.inputs.length ≠ d.spec.arity then
    .error (.invalidArgument "witness derivation has the wrong number of inputs")
  else if d.inputs.map (·.1) ≠ List.range d.spec.arity then
    .error (.invalidArgument "witness derivation is missing an input ordinal")
  else .ok ()

def Derivation.edge {ρ lbl : Type} (d : Derivation ρ lbl) : Edge ρ :=
  ⟨d.result, d.inputs.map (·.2)⟩

/-- The cost of each derivation, and of each row. -/
def relaxDerivations (ix : RowIndex) (derivations : List (Derivation ℕ ℕ)) :
    List UInt64 × (ℕ → UInt64) :=
  relaxList (fun id => (ix.rootRows id).isSome) (derivations.map (·.edge))

/-- Fewest tree edges, then lower priority; the order of the run decides the rest. -/
def keepBetter {δ : Type} (priority : δ → ℕ) (selected : Option (δ × UInt64)) (d : δ × UInt64) :
    Option (δ × UInt64) :=
  if d.2 = unproven then selected
  else
    match selected with
    | none => some d
    | some s =>
      if d.2 < s.2 ∨ (d.2 = s.2 ∧ priority d.1 < priority s.1) then some d else selected

def selectProof {δ : Type} (priority : δ → ℕ) (run : List (δ × UInt64)) : Option (δ × UInt64) :=
  run.foldl (keepBetter priority) none

structure Selection where
  /-- The derivations from the cursor on, with their costs. -/
  remaining : List (Derivation ℕ ℕ × UInt64)
  facts : List (ℕ × AnalysisFact)
  witnesses : List (WitnessOrder × WitnessEdge)

def noFiniteProof {α : Type} : StatusOr α :=
  .error (.failedPrecondition "published result has no finite proof rooted in declared inputs")

/-- The row a published or cited id stands for; the root's where it is both. -/
def RowIndex.rowOf (ix : RowIndex) (id : ℕ) : Option SemanticRow :=
  (ix.rootRows id).orElse fun _ => ix.resultRows id

/-- The fact of one result and the edges of the proof selected from its run. -/
def emitResult (sha256 : String → String) (ix : RowIndex) (cost : ℕ → UInt64)
    (run : List (Derivation ℕ ℕ × UInt64)) (id : ℕ) :
    StatusOr ((ℕ × AnalysisFact) × List (WitnessOrder × WitnessEdge)) :=
  if cost id = unproven then noFiniteProof
  else
    match selectProof (·.spec.priority) run, ix.resultRows id with
    | some (selected, _), some row => do
      let fact ← makeFact sha256 row
      let edges := selected.inputs.filterMap fun (ordinal, input) =>
        (ix.rowOf input).map fun inputRow =>
          (witnessOrder (ix.rows.rank id) selected.rule ordinal (ix.rows.rank input),
            (⟨row, selected.spec.id, "", inputRow, ordinal⟩ : WitnessEdge))
      return ((ix.rows.rank id, fact), edges)
    | _, _ => noFiniteProof

/-- The derivations are grouped by result, so a result's run is the one at the cursor. -/
def selectResult (sha256 : String → String) (ix : RowIndex) (cost : ℕ → UInt64)
    (acc : Selection) (id : ℕ) : StatusOr Selection := do
  let emitted ← emitResult sha256 ix cost (acc.remaining.takeWhile (·.1.result = id)) id
  return ⟨acc.remaining.dropWhile (·.1.result = id), acc.facts ++ [emitted.1],
    acc.witnesses ++ emitted.2⟩

def sortByKeys {α κ : Type} [LinearOrder κ] (entries : List (κ × α)) : List α :=
  (entries.insertionSort fun a b => a.1 ≤ b.1).map (·.2)

/-- Everything the canonicalizer knows once all edges are checked. -/
structure Prepared where
  index : RowIndex
  derivations : List (Derivation ℕ ℕ)

def prepare (roots : List RootedInputFact) (raw : RawWpaEvaluation) : StatusOr Prepared := do
  let ix ← indexRows roots raw.results
  let acc ← raw.witnesses.foldlM (addEdge ix) ⟨.empty, []⟩
  let derivations := rankDerivations ix acc
  derivations.forM checkArity
  return ⟨ix, derivations⟩

def Prepared.select (sha256 : String → String) (p : Prepared) : StatusOr Selection :=
  let costs := relaxDerivations p.index p.derivations
  let resultOrder := p.index.resultRowIds.insertionSort fun a b =>
    p.index.rows.rank a ≤ p.index.rows.rank b
  resultOrder.foldlM (selectResult sha256 p.index costs.2) ⟨p.derivations.zip costs.1, [], []⟩

def canonicalize (sha256 : String → String) (request : CanonicalizationRequest) :
    StatusOr CanonicalizedResult :=
  match request.evaluation with
  | none => .error (.invalidArgument "missing raw evaluation")
  | some raw => do
    let prepared ← prepare (request.localRoots ++ request.successorRoots) raw
    let selection ← prepared.select sha256
    let facts := sortByKeys selection.facts
    let witnesses := sortByKeys selection.witnesses
    let hashes := computeCanonicalResultHashes sha256 facts witnesses
    return ⟨facts, witnesses, hashes.fixpointHash, hashes.externalHash, raw.diagnostics⟩

end Veritas
