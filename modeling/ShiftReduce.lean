import ShiftReduce.Automaton.Basic
import ShiftReduce.Automaton.Collection
import ShiftReduce.Automaton.Conflict
import ShiftReduce.Automaton.Options
import ShiftReduce.Automaton.Report
import ShiftReduce.Command.Arguments
import ShiftReduce.Command.Basic
import ShiftReduce.Command.Directory
import ShiftReduce.Command.Perform
import ShiftReduce.Distinct
import ShiftReduce.Grammar.Basic
import ShiftReduce.Grammar.Defects
import ShiftReduce.Grammar.Draft
import ShiftReduce.Grammar.First
import ShiftReduce.Grammar.Follow
import ShiftReduce.Grammar.Source
import ShiftReduce.Grammar.Vocabulary
import ShiftReduce.Item.Basic
import ShiftReduce.Main
import ShiftReduce.Notice
import ShiftReduce.Numbered
import ShiftReduce.Reach
import ShiftReduce.Run.Basic
import ShiftReduce.Run.Finish
import ShiftReduce.Run.Outcome
import ShiftReduce.Run.Seen
import ShiftReduce.Run.Stack
import ShiftReduce.Run.Trace
import ShiftReduce.Table.Basic
import ShiftReduce.Table.Binary
import ShiftReduce.Table.BitRows
import ShiftReduce.Table.Bytes
import ShiftReduce.Table.Consistency
import ShiftReduce.Table.Dump
import ShiftReduce.Table.Segments
import ShiftReduce.Text.Words
import ShiftReduce.Token.Basic
import ShiftReduce.Token.Words
import ShiftReduce.Proofs.Automaton.BreadthFirst
import ShiftReduce.Proofs.Automaton.Canonical
import ShiftReduce.Proofs.Automaton.Conflict
import ShiftReduce.Proofs.Automaton.Detection
import ShiftReduce.Proofs.Automaton.Items
import ShiftReduce.Proofs.Automaton.Origin
import ShiftReduce.Proofs.Automaton.Path
import ShiftReduce.Proofs.Automaton.Queue
import ShiftReduce.Proofs.Automaton.Recognition
import ShiftReduce.Proofs.Automaton.Renumbering
import ShiftReduce.Proofs.Automaton.Reordering
import ShiftReduce.Proofs.Automaton.Survey
import ShiftReduce.Proofs.Automaton.Unambiguous
import ShiftReduce.Proofs.Automaton.Viable
import ShiftReduce.Proofs.Command.Arguments
import ShiftReduce.Proofs.Command.Directory
import ShiftReduce.Proofs.Command.Saved
import ShiftReduce.Proofs.Command.World
import ShiftReduce.Proofs.Distinct
import ShiftReduce.Proofs.Except
import ShiftReduce.Proofs.Grammar.Calls
import ShiftReduce.Proofs.Grammar.Cycle
import ShiftReduce.Proofs.Grammar.CycleSearch
import ShiftReduce.Proofs.Grammar.Derivation
import ShiftReduce.Proofs.Grammar.Detached
import ShiftReduce.Proofs.Grammar.Draft
import ShiftReduce.Proofs.Grammar.First
import ShiftReduce.Proofs.Grammar.FirstExact
import ShiftReduce.Proofs.Grammar.FirstSweeps
import ShiftReduce.Proofs.Grammar.Follow
import ShiftReduce.Proofs.Grammar.FollowExact
import ShiftReduce.Proofs.Grammar.FollowSweeps
import ShiftReduce.Proofs.Grammar.Index
import ShiftReduce.Proofs.Grammar.Lines
import ShiftReduce.Proofs.Grammar.Reachable
import ShiftReduce.Proofs.Grammar.Reordering
import ShiftReduce.Proofs.Grammar.Source
import ShiftReduce.Proofs.Grammar.Unreachable
import ShiftReduce.Proofs.Grammar.Vocabulary
import ShiftReduce.Proofs.Grammar.Written
import ShiftReduce.Proofs.Item.Closure
import ShiftReduce.Proofs.Item.ClosureOperator
import ShiftReduce.Proofs.Item.Renumbering
import ShiftReduce.Proofs.Reach
import ShiftReduce.Proofs.Run.Bounds
import ShiftReduce.Proofs.Run.Climb
import ShiftReduce.Proofs.Run.Completeness
import ShiftReduce.Proofs.Run.Consistent
import ShiftReduce.Proofs.Run.Cycle
import ShiftReduce.Proofs.Run.Endless
import ShiftReduce.Proofs.Run.Finish
import ShiftReduce.Proofs.Run.Free
import ShiftReduce.Proofs.Run.Generated
import ShiftReduce.Proofs.Run.Gotos
import ShiftReduce.Proofs.Run.Layout
import ShiftReduce.Proofs.Run.Lookahead
import ShiftReduce.Proofs.Run.Record
import ShiftReduce.Proofs.Run.Rejection
import ShiftReduce.Proofs.Run.Soundness
import ShiftReduce.Proofs.Run.Step
import ShiftReduce.Proofs.Run.Steps
import ShiftReduce.Proofs.Run.Termination
import ShiftReduce.Proofs.Run.Tokens
import ShiftReduce.Proofs.Run.Total
import ShiftReduce.Proofs.Run.Trace
import ShiftReduce.Proofs.Run.Unguarded
import ShiftReduce.Proofs.Sweep
import ShiftReduce.Proofs.Table.Binary
import ShiftReduce.Proofs.Table.Bytes
import ShiftReduce.Proofs.Table.Consistency
import ShiftReduce.Proofs.Table.Lookup
import ShiftReduce.Proofs.Table.Lossless
import ShiftReduce.Proofs.Table.Options
import ShiftReduce.Proofs.Table.Truncation
import ShiftReduce.Proofs.Table.Unreachable
import ShiftReduce.Proofs.Table.Words
import ShiftReduce.Proofs.Text.Words
import ShiftReduce.Proofs.Token.Stream
import ShiftReduce.Proofs.Token.Words
import ShiftReduce.Proofs.Worklist
