import AlgebraicLoop.Linear.Holder
import AlgebraicLoop.Formula
import AlgebraicLoop.Main
import AlgebraicLoop.Proofs.Nominals
import AlgebraicLoop.Proofs.Success
import AlgebraicLoop.Proofs.FatalCalls
import AlgebraicLoop.Proofs.Rewind
import AlgebraicLoop.Proofs.InsideBounds
import AlgebraicLoop.Proofs.JacobianSteps
import AlgebraicLoop.Proofs.SolveSteps
import AlgebraicLoop.Proofs.Passages
import AlgebraicLoop.Proofs.FactorsInUse
import AlgebraicLoop.Proofs.EventHistories
import AlgebraicLoop.Proofs.FreshJacobians
import AlgebraicLoop.Proofs.MeritDescent
import AlgebraicLoop.Proofs.AttemptBoxes
import AlgebraicLoop.Proofs.ReportedNorms
import AlgebraicLoop.Proofs.FirstSolves
import AlgebraicLoop.Proofs.UnitIndependence
import AlgebraicLoop.Proofs.GroupedDifferences
import AlgebraicLoop.Proofs.HalfwayJacobians
import AlgebraicLoop.Proofs.ScaleRanges
import AlgebraicLoop.Proofs.StartingOver
import AlgebraicLoop.Proofs.LimitedSteps
import AlgebraicLoop.Proofs.RootSearches
import AlgebraicLoop.Proofs.ScalesSetUp
import AlgebraicLoop.Proofs.InspectedLinearBlocks
import AlgebraicLoop.Proofs.RoundedQuotients
import AlgebraicLoop.Proofs.StepReports
import AlgebraicLoop.Proofs.RunVerdicts
import AlgebraicLoop.Proofs.DirectSolves
import AlgebraicLoop.Proofs.DownhillSteps
import AlgebraicLoop.Proofs.SecantUpdates
import AlgebraicLoop.Proofs.StepHistories
import AlgebraicLoop.Proofs.DefinedDifferences
import AlgebraicLoop.Proofs.PremarkedJacobians
import AlgebraicLoop.Proofs.ColumnGroups
import AlgebraicLoop.Proofs.Endeavours
import AlgebraicLoop.Proofs.WriteBacks
import AlgebraicLoop.Proofs.ReportedAttempts
import AlgebraicLoop.Proofs.WorkTallies
import AlgebraicLoop.Proofs.JacobianRefreshes
import AlgebraicLoop.Proofs.SearchTrials
import AlgebraicLoop.Proofs.RejectedCalls
import AlgebraicLoop.Proofs.LimitOrder
import AlgebraicLoop.Proofs.PhaseHistories
import AlgebraicLoop.Proofs.RepairedNominals
import AlgebraicLoop.Proofs.HeldFactors
import AlgebraicLoop.Proofs.BracketHistories
import AlgebraicLoop.Proofs.AttemptMarks
