import DdKlee.Proofs.Caching
import DdKlee.Proofs.CallPathManager
import DdKlee.Proofs.ConcreteStore
import DdKlee.Proofs.CopyOnWrite
import DdKlee.Proofs.DiscretePDF
import DdKlee.Proofs.Exploration
import DdKlee.Proofs.ExprUtil
import DdKlee.Proofs.FeatureHandler
import DdKlee.Proofs.ImmutableTreeIterator
import DdKlee.Proofs.InitialArray
import DdKlee.Proofs.IntrinsicCleaner
import DdKlee.Proofs.KTest
import DdKlee.Proofs.MemoryManager
import DdKlee.Proofs.Merge
import DdKlee.Proofs.Paradyse
import DdKlee.Proofs.ParameterizedSearcher
import DdKlee.Proofs.Parser
import DdKlee.Proofs.PathWriter
import DdKlee.Proofs.PosixFile
import DdKlee.Proofs.ProcessTree
import DdKlee.Proofs.Propogation
import DdKlee.Proofs.ResolveBound
import DdKlee.Proofs.Runtime
import DdKlee.Proofs.SMTLIBScript
import DdKlee.Proofs.STPBuilder
import DdKlee.Proofs.SolverRange
import DdKlee.Proofs.StoredSets
import DdKlee.Proofs.Varargs
