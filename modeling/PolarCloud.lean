import PolarCloud.Proofs.Mining.Acceptance
import PolarCloud.Proofs.Mining.Ballots
import PolarCloud.Proofs.Mining.BlockOrder
import PolarCloud.Proofs.Mining.CheckedRange
import PolarCloud.Proofs.Mining.ContentAddress
import PolarCloud.Proofs.Mining.Counters
import PolarCloud.Proofs.Mining.DoubleSpend
import PolarCloud.Proofs.Mining.FailedImport
import PolarCloud.Proofs.Mining.GroupDeposits
import PolarCloud.Proofs.Mining.HeightVote
import PolarCloud.Proofs.Mining.IdStability
import PolarCloud.Proofs.Mining.Identity
import PolarCloud.Proofs.Mining.InputSignatures
import PolarCloud.Proofs.Mining.Merkle
import PolarCloud.Proofs.Mining.Restart
import PolarCloud.Proofs.Mining.SaverQueue
import PolarCloud.Proofs.Mining.Shape
import PolarCloud.Proofs.Mining.Survival
import PolarCloud.Proofs.Mining.SyncWalk
import PolarCloud.Proofs.Mining.Totals
import PolarCloud.Proofs.Mining.TwoImports
import PolarCloud.Proofs.Mining.WireRoundTrip
import PolarCloud.Proofs.Mining.WitnessPartition
import PolarCloud.Proofs.Mining.Witnesses
import PolarCloud.Proofs.Engine.RoundTrip
import PolarCloud.Proofs.Engine.Malformed
import PolarCloud.Proofs.MessageCenter.Coverage
import PolarCloud.Proofs.MessageCenter.Replies
import PolarCloud.Proofs.Cache.Leaders
import PolarCloud.Proofs.Cache.Deleted
import PolarCloud.Proofs.Cache.Converge
import PolarCloud.Proofs.Engine.SessionTable
import PolarCloud.Proofs.Auth
import PolarCloud.Proofs.Utils.TimeTask
import PolarCloud.Proofs.Proto
import PolarCloud.Proofs.Store.FileChunk
import PolarCloud.Proofs.Store.Download
import PolarCloud.Proofs.Store.Sync
import PolarCloud.Proofs.Store.Verified
import PolarCloud.Proofs.Keystore.Addresses
import PolarCloud.Proofs.NodeStore.SuperPeer
import PolarCloud.Proofs.Keystore.AddressSequence
import PolarCloud.Proofs.Keystore.Cipher
import PolarCloud.Proofs.Keystore.ExpAddresses
import PolarCloud.Proofs.Keystore.SeedsIndex
import PolarCloud.Proofs.Keystore.WrongPassword
import PolarCloud.Proofs.NodeStore.ExactSearch
import PolarCloud.Proofs.NodeStore.Slots
import PolarCloud.Proofs.Rpc
import PolarCloud.Proofs.NodeStore.FarIds
import PolarCloud.Proofs.NodeStore.NeedNode
import PolarCloud.Proofs.NodeStore.RemoveId
import PolarCloud.Proofs.MessageCenter.NearSuper
import PolarCloud.Proofs.MessageCenter.Registry
import PolarCloud.Proofs.Cache.Rounds
import PolarCloud.Proofs.Cache.HeartTime
import PolarCloud.Proofs.CacheStore.Ids
import PolarCloud.Proofs.CacheStore.Locks
import PolarCloud.Proofs.CacheStore.Waiters
import PolarCloud.Proofs.Utils.Vote
import PolarCloud.Proofs.Proto.Retries
import PolarCloud.Proofs.Store.Complete
import PolarCloud.Proofs.Store.Requests
import PolarCloud.Proofs.Store.Places
import PolarCloud.Proofs.Store.Receivers
import PolarCloud.Proofs.Store.Cleaning
import PolarCloud.Proofs.Store.IndexText
import PolarCloud.Proofs.Engine.Ikcp.Safe
import PolarCloud.Base.Answers
import PolarCloud.Base.Numerals
import PolarCloud.Base.Recency
import PolarCloud.Model.Utils.Base58
import PolarCloud.Model.Utils.Lru
import PolarCloud.Proofs.Utils.Base58
import PolarCloud.Proofs.Utils.Lru
