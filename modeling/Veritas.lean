import Veritas.Wpa.EngineAgreement
import Veritas.Runtime.WorklistScheduler
import Veritas.Facts.FactPaging
import Veritas.Facts.Explainability
import Veritas.Evidence.FlowCompleteness
import Veritas.Evidence.JsonOrder
import Veritas.Cpg.ProjectionLoad
import Veritas.Analysis.ProjectSnapshot
import Veritas.SummaryDb.ChangedComponents
import Veritas.Review.CapturedInstant
import Veritas.Facts.ProofCost
import Veritas.Wpa.KeySpelling
import Veritas.Wpa.EngineKey
import Veritas.Build.ManifestIdentity
import Veritas.Review.AuditStore
import Veritas.Wpa.CacheRoundTrip
import Veritas.Facts.BatchBinding
import Veritas.SummaryDb.ImpactBudget
import Veritas.Analysis.GepOffset
import Veritas.Evidence.EvidencePredicateMapper
import Veritas.Cpg.CpgQuery
import Veritas.SummaryDb.ObjectStore
import Veritas.Analysis.SlotRecovery
import Veritas.Core.RunMetrics
import Veritas.Analysis.OriginMap
