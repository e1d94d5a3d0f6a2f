import Veritas.Summary.ComponentHash

/-! Which components of a summary changed between two of its revisions. -/
namespace Veritas.SummaryDb

open Summary

/-- An open enum: any integer is a value. -/
abbrev ComponentKind := ℤ

/-- The hashes of one component; it is listed when one of them changed. -/
structure ComponentDelta where
  componentKind : ComponentKind
  oldSemanticHash : String
  newSemanticHash : String
  oldEvidenceHash : String
  newEvidenceHash : String
  deriving DecidableEq

def ComponentDelta.semanticChanged (delta : ComponentDelta) : Bool :=
  delta.oldSemanticHash ≠ delta.newSemanticHash

def ComponentDelta.evidenceChanged (delta : ComponentDelta) : Bool :=
  delta.oldEvidenceHash ≠ delta.newEvidenceHash

structure SummaryDelta where
  oldSummaryId : StableId
  newSummaryId : StableId
  changedComponents : List ComponentDelta
  semanticChanged : Bool
  evidenceChanged : Bool

def SummaryDelta.hasChanged (delta : SummaryDelta) (kind : ComponentKind) : Bool :=
  delta.changedComponents.any (·.componentKind = kind)

section Compare

variable (sha256 : String → String) (old new : V1.FunctionSummary)

def componentDelta (kind : ComponentKind) : ComponentDelta where
  componentKind := kind
  oldSemanticHash := (V1.computeComponentDigest sha256 kind old).semanticHash
  newSemanticHash := (V1.computeComponentDigest sha256 kind new).semanticHash
  oldEvidenceHash := (V1.computeComponentDigest sha256 kind old).evidenceHash
  newEvidenceHash := (V1.computeComponentDigest sha256 kind new).evidenceHash

/-- One turn of the loop. A component with the same hashes is not listed. -/
def compareComponent (delta : SummaryDelta) (kind : ComponentKind) : SummaryDelta :=
  let component := componentDelta sha256 old new kind
  if !component.semanticChanged && !component.evidenceChanged then delta
  else
    { delta with
      changedComponents := delta.changedComponents ++ [component]
      semanticChanged := delta.semanticChanged || component.semanticChanged
      evidenceChanged := delta.evidenceChanged || component.evidenceChanged }

end Compare

def diffSummaries (codec : SummaryCodec) (old new : V1.FunctionSummary) : StatusOr SummaryDelta := do
  let oldId ← codec.computeFunctionSummaryId (.v1 old)
  let newId ← codec.computeFunctionSummaryId (.v1 new)
  pure (componentKinds.foldl (compareComponent codec.sha256 old new)
    ⟨oldId, newId, [], false, false⟩)

/-- The kind is listed with a new semantic hash. -/
def SummaryDelta.ReportsSemantic (delta : SummaryDelta) (kind : ComponentKind) : Prop :=
  delta.semanticChanged = true ∧
    ∃ component ∈ delta.changedComponents,
      component.componentKind = kind ∧ component.semanticChanged = true

/-- The kind is listed with a new evidence hash. -/
def SummaryDelta.ReportsEvidence (delta : SummaryDelta) (kind : ComponentKind) : Prop :=
  delta.evidenceChanged = true ∧
    ∃ component ∈ delta.changedComponents,
      component.componentKind = kind ∧ component.evidenceChanged = true

end Veritas.SummaryDb
