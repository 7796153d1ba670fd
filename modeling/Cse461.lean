import Cse461.Multiplex.Accept
import Cse461.Multiplex.BounceBack
import Cse461.Multiplex.Bounds
import Cse461.Multiplex.Completion
import Cse461.Multiplex.Coverage
import Cse461.Multiplex.Delivery
import Cse461.Multiplex.Handshake
import Cse461.Multiplex.Keys
import Cse461.Multiplex.Layout
import Cse461.Multiplex.Once
import Cse461.Multiplex.QueueThreads
import Cse461.Multiplex.Receive
import Cse461.Multiplex.RoundTrip
import Cse461.Multiplex.Send
import Cse461.Multiplex.TestRun
import Cse461.Multiplex.Wakeup
import Cse461.Secrets.Acceptance
import Cse461.Secrets.Agreement
import Cse461.Secrets.Earned
import Cse461.Secrets.Encoding
import Cse461.Secrets.Read
import Cse461.Table.HashTable
import Cse461.Table.Iterator
import Cse461.Table.Lifetime
import Cse461.Table.Locking
import Cse461.Table.Returning
import Cse461.Table.Sequence
import Cse461.Table.Sort
