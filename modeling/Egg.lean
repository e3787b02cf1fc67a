import Egg.CommandLine
import Egg.Highlight
import Egg.Main
import Egg.Session.Basic
import Egg.Proofs.Grammar
import Egg.Proofs.ReaderEquations
import Egg.Proofs.GrammarReader
import Egg.Proofs.BigStep
import Egg.Proofs.BigStepEvaluation
import Egg.Proofs.MachineGrowth
import Egg.Proofs.Region
import Egg.Proofs.Reachability
import Egg.Proofs.Continuation
import Egg.Proofs.MoreInput
import Egg.Proofs.MachineChange
import Egg.Proofs.ScopeForest
import Egg.Proofs.Above
import Egg.Proofs.Mirroring
import Egg.Proofs.SessionReset
import Egg.Proofs.WrittenToken
import Egg.Proofs.LayoutFree
import Egg.Proofs.PrintedTerm
import Egg.Proofs.TaskStep
import Egg.Proofs.ProgramNode
import Egg.Proofs.Discipline
import Egg.Proofs.FreshRun
import Egg.Proofs.ErrorPlace
import Egg.Proofs.UncheckedPrimitive
import Egg.Proofs.IntFree
import Egg.Proofs.NeverStuck
import Egg.Proofs.JoinedSources
import Egg.Proofs.ViablePrefix
import Egg.Proofs.FirstBadToken
import Egg.Proofs.IdleEvent
import Egg.Proofs.ShapeCheck
import Egg.Proofs.DepthLimit
import Egg.Proofs.RunSight
import Egg.Proofs.ObjectIdentity
import Egg.Proofs.ScanMode
import Egg.Proofs.HiddenCharacter
import Egg.Proofs.SlashLine
import Egg.Proofs.ReadOverWrite
import Egg.Proofs.LeafToken
import Egg.Proofs.PrefixForm
import Egg.Proofs.OutlineReading
import Egg.Proofs.ControlLaws
import Egg.Proofs.PaintedLine
import Egg.Proofs.ExactValue
import Egg.Proofs.FloatRange
import Egg.Proofs.ArrayAccess
import Egg.Proofs.ComparisonOrder
import Egg.Proofs.LayoutRun
import Egg.Proofs.ReaderProgress
import Egg.Proofs.LineColumn
