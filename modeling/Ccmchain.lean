import Ccmchain.Lib.PrefixMap
import Ccmchain.Lib.Except
import Ccmchain.Lib.BigEndian
import Ccmchain.Lib.EStateM
import Ccmchain.Trie.Encoding
import Ccmchain.Trie.Trie
import Ccmchain.Trie.Lookup
import Ccmchain.Trie.MapSemantics
import Ccmchain.Trie.Canonical
import Ccmchain.Rlp.Value
import Ccmchain.Rlp.Encode
import Ccmchain.Rlp.Stream
import Ccmchain.Rlp.Decode
import Ccmchain.Rlp.Raw
import Ccmchain.Trie.Hasher
import Ccmchain.Common.Types
import Ccmchain.Common.Math
import Ccmchain.Lib.UndoLog
import Ccmchain.Lib.Search
import Ccmchain.State.Object
import Ccmchain.State.Journal
import Ccmchain.State.StateDB
import Ccmchain.State.View
import Ccmchain.State.History
import Ccmchain.State.Methods
import Ccmchain.State.Revert
import Ccmchain.State.Accounts
import Ccmchain.Core.StateTransition
import Ccmchain.Lib.AListSum
import Ccmchain.Trie.Database
import Ccmchain.Core.BlockChain
import Ccmchain.Rlp.Split
import Ccmchain.Consensus.Clique
import Ccmchain.Lib.Crc32
import Ccmchain.Core.ForkId
import Ccmchain.Signer.TypedData
import Ccmchain.Abi.Type
import Ccmchain.Abi.Unpack
import Ccmchain.Lib.BitSet
import Ccmchain.Core.Bloom
import Ccmchain.Core.BloomBits
import Ccmchain.Les.FlowControl
import Ccmchain.Lib.File
import Ccmchain.RawDb.FreezerTable
import Ccmchain.Vm.Stack
import Ccmchain.Vm.Instructions
import Ccmchain.Vm.Gas
import Ccmchain.Vm.Analysis
import Ccmchain.Vm.JumpTable
import Ccmchain.Rlp.Uint
import Ccmchain.Rlp.EncReader
import Ccmchain.Trie.Decode
import Ccmchain.Common.Hexutil
import Ccmchain.Core.Transaction
import Ccmchain.Common.Bitutil
import Ccmchain.Lib.Heap
import Ccmchain.Core.TxSortedMap
import Ccmchain.Core.TxList
import Ccmchain.Core.TxPool
import Ccmchain.Lib.Reaches
import Ccmchain.Rlp.Positions
import Ccmchain.Params.Config
import Ccmchain.P2p.Protocols
import Ccmchain.Lib.HeapIface
import Ccmchain.Common.Sstack
import Ccmchain.Common.Prque
import Ccmchain.Fetcher.Basic
import Ccmchain.Fetcher.Steps
import Ccmchain.Fetcher.Queue
import Ccmchain.Fetcher.Announces
import Ccmchain.Lib.StreamCipher
import Ccmchain.Lib.Channel
import Ccmchain.P2p.Rlpx
import Ccmchain.P2p.RlpxFrame
import Ccmchain.P2p.RlpxSession
import Ccmchain.Lib.Thread
import Ccmchain.Trie.FlushList
import Ccmchain.Trie.Flush
import Ccmchain.Trie.Commit
