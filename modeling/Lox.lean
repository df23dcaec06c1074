import Lox.Main
import Lox.Pool
import Lox.Proofs.CommandLine.Trees
import Lox.Proofs.Run.Programs
import Lox.Proofs.Run.Scopes
import Lox.Proofs.Run.Bindings
import Lox.Proofs.Node.Likeness
import Lox.Proofs.Run.Likeness
import Lox.Proofs.Run.Simulation
import Lox.Proofs.Run.Pairing
import Lox.Proofs.Run.Origins
import Lox.Proofs.Run.Sessions
import Lox.Proofs.Run.Branches
import Lox.Proofs.Run.Reachability
import Lox.Proofs.Run.Privacy
import Lox.Proofs.Node.Relabel
import Lox.Proofs.Scan.Stacks
import Lox.Proofs.Parse.Copies
import Lox.Proofs.Parse.Excerpts
import Lox.Proofs.Parse.Stacks
import Lox.Proofs.Run.Returns
import Lox.Proofs.Run.Splitting
import Lox.Proofs.Run.TopLevel
import Lox.Proofs.Run.Lines
import Lox.Proofs.Run.Frames
import Lox.Proofs.Decimal.Reading
import Lox.Proofs.Scan.Partition
import Lox.Proofs.Parse.Cursor
import Lox.Proofs.Parse.Recovery
import Lox.Proofs.Run.ForLoops
import Lox.Proofs.Pool.Sharing
import Lox.Proofs.Run.Overflow
import Lox.Proofs.Run.Unwinding
import Lox.Proofs.Parse.FirstErrors
import Lox.Proofs.Node.Normal
import Lox.Proofs.Parse.Leading
import Lox.Proofs.Run.Builtins
import Lox.Proofs.Run.Numbers
import Lox.Proofs.Run.Layout
import Lox.Proofs.Run.Flaws
