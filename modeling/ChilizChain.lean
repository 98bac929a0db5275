import ChilizChain.Codec.RawList
import ChilizChain.Core.BlobBaseFee
import ChilizChain.Core.Fees
import ChilizChain.Core.ForkChoice
import ChilizChain.Parlia.Draw
import ChilizChain.Parlia.FrequencyOrder
import ChilizChain.Parlia.BlockTime
import ChilizChain.Parlia.InTurn
import ChilizChain.Parlia.Compose
import ChilizChain.Parlia.SpamProtection
import ChilizChain.Parlia.BlobGas
import ChilizChain.Parlia.Mint
import ChilizChain.Parlia.SlashDecision
import ChilizChain.Parlia.BaseFee
import ChilizChain.Parlia.Proposal
import ChilizChain.Params.Compatibility
import ChilizChain.Params.ForkId
import ChilizChain.Trie.Streaming
import ChilizChain.PathDb.Lookup
import ChilizChain.PathDb.IndexDeleter
import ChilizChain.FilterMaps.Matcher
import ChilizChain.Vm.Creation
import ChilizChain.Vm.Static
import ChilizChain.Vote.Honesty
import ChilizChain.Vote.Delivery
import ChilizChain.Miner.BidAdmission
import ChilizChain.Monitor.DoubleSign
import ChilizChain.Snap.Range
