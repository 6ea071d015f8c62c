import KvServer.Lib.Transition
import KvServer.Lib.Triple
import KvServer.Lib.Potential
import KvServer.Lib.Tokens
import KvServer.Lib.Replay
import KvServer.Lib.Transactional
import KvServer.Lib.Locks
import KvServer.Lib.TwoPhase
import KvServer.Lib.Atomic
import KvServer.Lib.Serializable
import KvServer.Lib.Snapshot
import KvServer.Lib.Racing
import KvServer.Model.Bytes
import KvServer.Model.Arith
import KvServer.Model.Message
import KvServer.Model.Serialization
import KvServer.Model.ValueStack
import KvServer.Model.Table
import KvServer.Model.Server
import KvServer.Model.Connection
import KvServer.Model.System
import KvServer.Model.Rio
import KvServer.Model.Clients
import KvServer.Model.Tools
import KvServer.Model.Descriptor
import KvServer.Model.Wire
import KvServer.Model.Net
import KvServer.Model.Process
import KvServer.Spec.Expr
import KvServer.Spec.Solo
import KvServer.Spec.Program
import KvServer.Proofs.Grammar
import KvServer.Proofs.Serialization
import KvServer.Proofs.Handlers
import KvServer.Proofs.Steps
import KvServer.Proofs.Tables
import KvServer.Proofs.Protocol
import KvServer.Proofs.Locking
import KvServer.Proofs.Strangers
import KvServer.Proofs.Endings
import KvServer.Proofs.Decimal
import KvServer.Proofs.Receive
import KvServer.Proofs.Lines
import KvServer.Proofs.Solo
import KvServer.Proofs.Scope
import KvServer.Proofs.Values
import KvServer.Proofs.Book
import KvServer.Proofs.Acknowledged
import KvServer.Proofs.Work
import KvServer.Proofs.Replies
import KvServer.Proofs.Alone
import KvServer.Proofs.Arithmetic
import KvServer.Proofs.Clients
import KvServer.Proofs.Mains
import KvServer.Proofs.Requests
import KvServer.Proofs.Serializability
import KvServer.Proofs.Runs
import KvServer.Proofs.Creates
import KvServer.Proofs.Catalogue
import KvServer.Proofs.Counter
import KvServer.Proofs.Snapshots
import KvServer.Proofs.Isolation
import KvServer.Proofs.Modes
import KvServer.Proofs.Postfix
import KvServer.Proofs.Program
import KvServer.Proofs.Consistency
import KvServer.Proofs.Descriptor
import KvServer.Proofs.Framing
import KvServer.Proofs.Dialogue
import KvServer.Proofs.Disjoint
import KvServer.Proofs.Failures
import KvServer.Proofs.Storing
import KvServer.Proofs.Yields
import KvServer.Proofs.Fetched
import KvServer.Proofs.Increments
import KvServer.Proofs.Layout
import KvServer.Proofs.Quiescence
import KvServer.Proofs.Wire
import KvServer.Proofs.Net
import KvServer.Proofs.Operands
import KvServer.Proofs.Process
import KvServer.Proofs.Unescaped
