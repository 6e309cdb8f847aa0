import ArenaLisp.Main
import ArenaLisp.Proofs.AllocationStability
import ArenaLisp.Proofs.CallingConvention
import ArenaLisp.Proofs.Console.Agreement
import ArenaLisp.Proofs.Console.Sessions
import ArenaLisp.Proofs.Journeys
import ArenaLisp.Proofs.Lists.Construction
import ArenaLisp.Proofs.Lists.Session
import ArenaLisp.Proofs.MarkingOrder
import ArenaLisp.Proofs.MemoryExhaustion
import ArenaLisp.Proofs.NamedObjects
import ArenaLisp.Proofs.Reading.Composition
import ArenaLisp.Proofs.Reading.Exactness
import ArenaLisp.Proofs.Reading.Progress
import ArenaLisp.Proofs.Recovery.Incidents
import ArenaLisp.Proofs.Recovery.Window
import ArenaLisp.Proofs.Rendering.Flattening
import ArenaLisp.Proofs.Rendering.ReadBack
import ArenaLisp.Proofs.Slots.Turns
import ArenaLisp.Proofs.SourceOrder
import ArenaLisp.Proofs.Termination.Evaluation
import ArenaLisp.Proofs.TwoRuns.Repetition
import ArenaLisp.Proofs.TwoRuns.UntakenBranch
