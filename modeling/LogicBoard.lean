import LogicBoard.FileTree
import LogicBoard.Main
import LogicBoard.Proofs.RegisterRuns
import LogicBoard.Proofs.Cascade
import LogicBoard.Proofs.SnapshotStep
import LogicBoard.Proofs.CircuitOutcome
import LogicBoard.Proofs.CircuitGrowth
import LogicBoard.Proofs.CircuitIdentity
import LogicBoard.Proofs.WireSettling
import LogicBoard.Proofs.CatalogStock
import LogicBoard.Proofs.DumpLines
import LogicBoard.Proofs.BoardBuild
import LogicBoard.Proofs.RegisterPosts
import LogicBoard.Proofs.TracedLevels
import LogicBoard.Proofs.CircuitRest
import LogicBoard.Proofs.Influence
import LogicBoard.Proofs.BoardRuns
import LogicBoard.Proofs.BuiltBoards
import LogicBoard.Proofs.CircuitRenaming
import LogicBoard.Proofs.BoardTwins
import LogicBoard.Proofs.DescriptionOrder
import LogicBoard.Proofs.JsonLayout
import LogicBoard.Proofs.JsonStrings
import LogicBoard.Proofs.JsonGrammar
import LogicBoard.Proofs.DescriptionText
import LogicBoard.Proofs.SourceNumbers
import LogicBoard.Proofs.CircuitReload
import LogicBoard.Proofs.Relocation
import LogicBoard.Proofs.ConsoleRuns
import LogicBoard.Proofs.PlacementGrammar
import LogicBoard.Proofs.LevelTokens
import LogicBoard.Proofs.WirePass
import LogicBoard.Proofs.WireRoots
import LogicBoard.Proofs.DrivingOrder
import LogicBoard.Proofs.ClockCycles
import LogicBoard.Proofs.RegisterOutcome
import LogicBoard.Proofs.OutlineSymmetries
import LogicBoard.Proofs.CatalogRegistrations
import LogicBoard.Proofs.OutlineEdges
import LogicBoard.Proofs.PinNames
import LogicBoard.Proofs.DrivenFrame
import LogicBoard.Proofs.RunLog
import LogicBoard.Proofs.ReadOuts
import LogicBoard.Proofs.FilePaths
import LogicBoard.Proofs.ErrorMessages
import LogicBoard.Proofs.LogText
