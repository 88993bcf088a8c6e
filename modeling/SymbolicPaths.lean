import SymbolicPaths.Routine.Body
import SymbolicPaths.Script.Session
import SymbolicPaths.Script.Source
import SymbolicPaths.Proofs.Guard
import SymbolicPaths.Proofs.Descent
import SymbolicPaths.Proofs.Interchange
import SymbolicPaths.Proofs.MonadLaws
import SymbolicPaths.Proofs.RawMode
import SymbolicPaths.Proofs.Primitives
import SymbolicPaths.Proofs.Conclusion
import SymbolicPaths.Proofs.Closure
import SymbolicPaths.Proofs.Assembly
import SymbolicPaths.Proofs.Leaves
import SymbolicPaths.Proofs.Program
import SymbolicPaths.Proofs.Growth
import SymbolicPaths.Proofs.Worklist
import SymbolicPaths.Proofs.Paths
import SymbolicPaths.Proofs.Registers
import SymbolicPaths.Proofs.Enclosure
import SymbolicPaths.Proofs.Grouping
import SymbolicPaths.Proofs.Carrier
import SymbolicPaths.Proofs.Agreement
import SymbolicPaths.Proofs.Telling
import SymbolicPaths.Proofs.Twins
import SymbolicPaths.Proofs.Replays
import SymbolicPaths.Proofs.Matching
import SymbolicPaths.Proofs.HeapOrder
import SymbolicPaths.Proofs.Compression
import SymbolicPaths.Proofs.Calls
import SymbolicPaths.Proofs.Escape
import SymbolicPaths.Proofs.Isolation
import SymbolicPaths.Proofs.Pairing
import SymbolicPaths.Proofs.Independence
import SymbolicPaths.Proofs.Courses
import SymbolicPaths.Proofs.Sameness
import SymbolicPaths.Proofs.Conservation
import SymbolicPaths.Proofs.Levels
import SymbolicPaths.Proofs.Sequences
import SymbolicPaths.Proofs.Mapping
import SymbolicPaths.Proofs.Contracts
import SymbolicPaths.Proofs.Locations
import SymbolicPaths.Proofs.Reading
import SymbolicPaths.Proofs.Fusing
import SymbolicPaths.Proofs.Equality
import SymbolicPaths.Proofs.Tours
import SymbolicPaths.Proofs.Stations
import SymbolicPaths.Proofs.Overwriting
import SymbolicPaths.Proofs.Storing
import SymbolicPaths.Proofs.Rereading
import SymbolicPaths.Proofs.Composition
import SymbolicPaths.Proofs.Naming
import SymbolicPaths.Proofs.Partials
import SymbolicPaths.Proofs.Summary
import SymbolicPaths.Proofs.Caching
import SymbolicPaths.Proofs.Counting
import SymbolicPaths.Proofs.Reordering
import SymbolicPaths.Proofs.Indifference
import SymbolicPaths.Proofs.Building
import SymbolicPaths.Proofs.Routing
import SymbolicPaths.Proofs.Rendering
import SymbolicPaths.Proofs.Switching
import SymbolicPaths.Proofs.Capping
import SymbolicPaths.Proofs.Numerals
import SymbolicPaths.Proofs.Largest
import SymbolicPaths.Proofs.Comparison
import SymbolicPaths.Proofs.Stages
