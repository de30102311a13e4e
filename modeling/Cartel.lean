import Cartel.Client.Link
import Cartel.Core.Handoff
import Cartel.Core.Queue
import Cartel.Decode.Coordinates
import Cartel.Decode.Integers
import Cartel.Decode.Lists
import Cartel.Decode.Region
import Cartel.Decode.Replies
import Cartel.Decode.Scalar
import Cartel.Decode.Tree
import Cartel.Lib.Bitmap
import Cartel.Lib.Count
import Cartel.Lib.Decimal
import Cartel.Lib.Endian
import Cartel.Lib.Hash
import Cartel.Lib.Outcome
import Cartel.Lib.Reorder
import Cartel.Lib.Ring
import Cartel.Lib.Utf8
import Cartel.Notify.Queue
import Cartel.Parser.Accept
import Cartel.Parser.Accounts
import Cartel.Parser.Contract
import Cartel.Parser.Gate
import Cartel.Parser.Grammar
import Cartel.Parser.Limit
import Cartel.Parser.Line
import Cartel.Parser.Number
import Cartel.Parser.Pool
import Cartel.Parser.Reader
import Cartel.Parser.Resume
import Cartel.Parser.Spans
import Cartel.Parser.State
import Cartel.Parser.Storage
import Cartel.Parser.Tape
import Cartel.Parser.Tapes
import Cartel.Pool.Index
import Cartel.Pool.Invariant
import Cartel.Pool.Listing
import Cartel.Pool.Load
import Cartel.Pool.Moves
import Cartel.Pool.Pipeline
import Cartel.Pool.Run
import Cartel.Pool.Selection
import Cartel.Pool.Slot
import Cartel.Pool.Transactions
import Cartel.Reply.Group
import Cartel.Reply.Reparse
import Cartel.Reply.Results
import Cartel.Reply.Server
import Cartel.Request.Encode
import Cartel.Request.Framed
import Cartel.Scheduler.Invariant
import Cartel.Scheduler.Leases
import Cartel.Scheduler.Parties
import Cartel.Scheduler.Routes
import Cartel.Scheduler.Schedule
import Cartel.Scram.Bidi
import Cartel.Scram.Compose
import Cartel.Scram.Coordinator
import Cartel.Scram.Derivations
import Cartel.Scram.Derive
import Cartel.Scram.Exchange
import Cartel.Scram.Grammar
import Cartel.Scram.Offsets
import Cartel.Scram.Parser
import Cartel.Scram.Password
import Cartel.Scram.Prepare
import Cartel.Scram.Salt
import Cartel.Scram.Sha256
import Cartel.Scram.Standard
import Cartel.Scram.Values
import Cartel.Scram.Wakes
import Cartel.Value.Array
import Cartel.Value.Checked
import Cartel.Value.Decode
import Cartel.Value.Encode
import Cartel.Client.Handshake
import Cartel.Lib.Precedence
import Cartel.Sql.Lexer
import Cartel.Sql.Grammar
import Cartel.Sql.Phrases
import Cartel.Sql.Syntax
import Cartel.Sql.Source
import Cartel.Sql.Scope
import Cartel.Sql.Predicate
import Cartel.Sql.Texts
import Cartel.Sql.Mirror
import Cartel.Sql.Pieces
import Cartel.Sql.Structure
import Cartel.Sql.Captures
import Cartel.Sql.Sets
import Cartel.Sql.Chains
import Cartel.Sql.Conditions
import Cartel.Port.Failures
import Cartel.Lib.Automaton
import Cartel.Decode.Floats
import Cartel.Lib.Bytes
import Cartel.Row.Retainer
import Cartel.Retry.Slot
import Cartel.Retry.Calls
import Cartel.Lib.Dyadic
import Cartel.Lib.Linked
import Cartel.Heap.Sizes
import Cartel.Heap.Raw
import Cartel.Heap.Lists
import Cartel.Heap.Blocks
import Cartel.Heap.Growth
import Cartel.Heap.Hooks
import Cartel.Heap.Run
import Cartel.Heap.Laws
import Cartel.Lib.Nested
import Cartel.Tx.Work
import Cartel.Tx.Calls
import Cartel.Tx.World
import Cartel.Tx.Debts
import Cartel.Tx.Stages
import Cartel.Tx.Steps
import Cartel.Tx.Inv
import Cartel.Tx.Acts
import Cartel.Tx.Rounds
import Cartel.Tx.Controls
import Cartel.Tx.Laws
