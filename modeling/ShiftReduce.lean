import ShiftReduce.DefinitionEvents
import ShiftReduce.SampleGrammars
import ShiftReduce.TableBuild
import ShiftReduce.ParseRun
import ShiftReduce.ParserText
import ShiftReduce.ExplicitTable
import ShiftReduce.CharText
import ShiftReduce.Registry
import ShiftReduce.Proofs.Productions
import ShiftReduce.Proofs.CanonicalCollection
import ShiftReduce.Proofs.SetResolution
import ShiftReduce.Proofs.CellCandidates
import ShiftReduce.Proofs.SLRTable
import ShiftReduce.Proofs.Derivations
import ShiftReduce.Proofs.ParserRuns
import ShiftReduce.Proofs.StackPaths
import ShiftReduce.Proofs.ParseSoundness
import ShiftReduce.Proofs.ParseCompleteness
import ShiftReduce.Proofs.ParseTermination
import ShiftReduce.Proofs.ValidItems
import ShiftReduce.Proofs.EdgeOrder
import ShiftReduce.Proofs.StateNumbering
import ShiftReduce.Proofs.ParserSafety
import ShiftReduce.Proofs.TokenSymbols
import ShiftReduce.Proofs.SententialForms
import ShiftReduce.Proofs.ErrorPosition
import ShiftReduce.Proofs.QueryHistory
import ShiftReduce.Proofs.InterruptedTurns
import ShiftReduce.Proofs.Interruptions
import ShiftReduce.Proofs.AdmissibleDeclarations
import ShiftReduce.Proofs.WellFormedDefinitions
import ShiftReduce.Proofs.RenamedProductions
import ShiftReduce.Proofs.RuleOrder
import ShiftReduce.Proofs.MeteredSources
import ShiftReduce.Proofs.ParseTrees
import ShiftReduce.Proofs.TokenConservation
import ShiftReduce.Proofs.CyclicSets
import ShiftReduce.Proofs.FirstSets
import ShiftReduce.Proofs.FollowSets
import ShiftReduce.Proofs.ConflictReports
import ShiftReduce.Proofs.ReachableHeads
import ShiftReduce.Proofs.StoppingSearch
import ShiftReduce.Proofs.IsolatedAcceptance
import ShiftReduce.Proofs.HandedItems
import ShiftReduce.Proofs.LeastClosures
import ShiftReduce.Proofs.RefusedDeclarations
import ShiftReduce.Proofs.CallSequences
import ShiftReduce.Proofs.StepLimits
import ShiftReduce.Proofs.LookaheadReductions
import ShiftReduce.Proofs.ExpectedTerminals
import ShiftReduce.Proofs.InsertionHistories
import ShiftReduce.Proofs.StepTallies
import ShiftReduce.Proofs.BuildFailures
import ShiftReduce.Proofs.DuplicateProductions
import ShiftReduce.Proofs.WaitingValues
