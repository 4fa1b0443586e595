import OurChain.Contract.StrategyCalls
import OurChain.Contract.Failure
import OurChain.Contract.QueryStore
import OurChain.Contract.Protocol
import OurChain.Contract.Threads
import OurChain.Contract.Commitment
import OurChain.Validation.ReplayBlocks
import OurChain.Primitives.TransactionEncoding
import OurChain.GPoW.NextGPoW
import OurChain.Validation.PreciousBlock
import OurChain.CheckQueue.Wait
import OurChain.Script.SoftFork
import OurChain.Rustlib.Ym
import OurChain.Retarget
import OurChain.VersionBits
import OurChain.Miner.Assembly
import OurChain.Script.ScriptCode
import OurChain.Script.SignatureEncoding
import OurChain.BlockEncodings.Relay
import OurChain.MerkleBlock.Soundness
import OurChain.Chain.Locator
import OurChain.TxMempool.Hashes
import OurChain.Validation.TxIndex
import OurChain.Validation.Pruning
import OurChain.ArithUint256
import OurChain.Net.RoundExpiry
