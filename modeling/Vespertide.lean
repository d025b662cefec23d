import Vespertide.Schema
import Vespertide.Support.Text
import Vespertide.Support.KeyedView
import Vespertide.Support.AppendMissing
import Vespertide.Support.ReadyOrder
import Vespertide.Support.SqlRows
import Vespertide.Support.Components
import Vespertide.Support.Rearrange
import Vespertide.Support.Positions
import Vespertide.Support.Registry
import Vespertide.Action
import Vespertide.Naming
import Vespertide.Normalize
import Vespertide.Apply
import Vespertide.Diff
import Vespertide.Ordering
import Vespertide.Runtime
import Vespertide.RuntimeDivergence
import Vespertide.RuntimeHistory
import Vespertide.Sql
import Vespertide.OrphanCleanup
import Vespertide.DuplicateCleanup
import Vespertide.Query
import Vespertide.CreateTable
import Vespertide.CreateTableExact
import Vespertide.CheckExpr
import Vespertide.Additions
import Vespertide.AddConstraint
import Vespertide.CleanupReported
import Vespertide.Promotion
import Vespertide.Clearing
import Vespertide.Replay
import Vespertide.ConstraintDiff
import Vespertide.TableReplay
import Vespertide.ColumnEdits
import Vespertide.ConstraintEdits
import Vespertide.KeptTable
import Vespertide.TableDiff
import Vespertide.DropOrder
import Vespertide.TableSteps
import Vespertide.CreateOrder
import Vespertide.PlanShape
import Vespertide.PlanReplay
import Vespertide.PlanSteps
import Vespertide.TableConvergence
import Vespertide.Convergence
import Vespertide.References
import Vespertide.Drops
import Vespertide.Normalizable
import Vespertide.ActionSteps
import Vespertide.ColumnInvariants
import Vespertide.WellFormedReplay
import Vespertide.RenameColumn
import Vespertide.InlineGroups
import Vespertide.RemovedStays
import Vespertide.EnumHistory
import Vespertide.TablePrefix
import Vespertide.Narrowing
import Vespertide.ActionQueries
import Vespertide.SqliteRebuild
import Vespertide.RebuildReplay
import Vespertide.Support.Results
import Vespertide.Support.Holdings
import Vespertide.PlanQueries
import Vespertide.EnumTypes
import Vespertide.EnumRetyping
import Vespertide.EnumBalance
import Vespertide.CheckGrammar
import Vespertide.ContradictionSound
import Vespertide.DanglingReplay
import Vespertide.EnumDefaultsStay
import Vespertide.AddedAlike
import Vespertide.Recreation
import Vespertide.RecreationReaches
import Vespertide.DropSlots
import Vespertide.InlineRealised
import Vespertide.DiffOrder
import Vespertide.NarrowingExact
import Vespertide.DriftFresh
import Vespertide.PrismaRelations
import Vespertide.SeaOrmConsistent
import Vespertide.RenameExact
import Vespertide.NarrowingTypes
import Vespertide.CheckDefault
import Vespertide.StrengtheningExact
import Vespertide.CascadeReach
import Vespertide.EnumRestamp
import Vespertide.DefaultPaths
import Vespertide.FillPrompt
import Vespertide.EnumRemoval
import Vespertide.Quoting
import Vespertide.RemapMapping
import Vespertide.ConstraintTypeChanges
import Vespertide.CheckHighlight
import Vespertide.FieldNames
import Vespertide.ObjectNames
import Vespertide.EnumVariants
import Vespertide.ExportedDefaults
import Vespertide.FillCasts
import Vespertide.SequenceExhaustion
import Vespertide.LeadingKeyword
import Vespertide.ForeignKeyChains
import Vespertide.GormIndexes
import Vespertide.ScopeNames
import Vespertide.SemanticTokens
import Vespertide.Fingerprint
import Vespertide.RingCache
import Vespertide.FileUris
import Vespertide.CastChains
import Vespertide.PlanWarnings
import Vespertide.ColumnView
import Vespertide.CheckTypeMismatch
import Vespertide.Support.Footprints
import Vespertide.DropResolution
import Vespertide.DropRewrites
import Vespertide.DropSession
import Vespertide.SettledWarnings
import Vespertide.ColumnCatalog
import Vespertide.CatalogReplay
import Vespertide.EmbeddedHistory
import Vespertide.ForgottenComments
import Vespertide.Support.Edits
import Vespertide.Support.Dialogue
import Vespertide.Answers
import Vespertide.FillStage
import Vespertide.RevisionFlow
import Vespertide.WrittenPlans
import Vespertide.NarrowingPrompt
