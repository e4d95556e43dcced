import EosEvmNode.Lib.Runs
import EosEvmNode.Lib.UpperBound
import EosEvmNode.Channels
import EosEvmNode.Silkworm
import EosEvmNode.Engine
import EosEvmNode.Engine.StartBlock
import EosEvmNode.BlockConversion.Model
import EosEvmNode.BlockConversion.Steps
import EosEvmNode.BlockConversion.Extending
import EosEvmNode.BlockConversion.Adding
import EosEvmNode.BlockConversion.Contents
import EosEvmNode.BlockConversion.Safety
import EosEvmNode.BlockConversion.Uniformity
import EosEvmNode.BlockConversion.Canonical
import EosEvmNode.BlockConversion.ForkIndependence
import EosEvmNode.BlockConversion.Genesis
import EosEvmNode.BlockConversion.Irreversibility
import EosEvmNode.BlockConversion.Finality
import EosEvmNode.BlockConversion.Replica
import EosEvmNode.BlockConversion.Restart
import EosEvmNode.BlockConversion.Cursors
import EosEvmNode.BlockConversion.RoundTrip
import EosEvmNode.Blockchain.StoredLib
import EosEvmNode.Blockchain.ExecEngine
import EosEvmNode.Blockchain.Parameters
import EosEvmNode.Blockchain.Recovery
import EosEvmNode.HttpProxy.BatchAccess
import EosEvmNode.HttpProxy.BufferedBodies
import EosEvmNode.HttpProxy.Decisions
import EosEvmNode.Lib.InsertionMap
import EosEvmNode.Lib.NumberedLog
import EosEvmNode.Lib.OrderedMap
import EosEvmNode.Pipeline
import EosEvmNode.ShipReceiver.Assembly
import EosEvmNode.ShipReceiver.Continuity
import EosEvmNode.ShipReceiver.ExecutionOrder
import EosEvmNode.ShipReceiver.ForeignActions
import EosEvmNode.ShipReceiver.Reconnection
import EosEvmNode.ShipReceiver.Retries
import EosEvmNode.ShipReceiver.WellFormed
import EosEvmNode.TokenDistribution.Restarts
import EosEvmNode.TokenDistribution.Success
import EosEvmNode.WsProxy.Batches
import EosEvmNode.WsProxy.BlockMonitor
import EosEvmNode.WsProxy.CatchUp
import EosEvmNode.WsProxy.ClientViews
import EosEvmNode.WsProxy.Connections
import EosEvmNode.WsProxy.Convergence
import EosEvmNode.WsProxy.Heads
import EosEvmNode.WsProxy.LogFilters
import EosEvmNode.WsProxy.LogRetractions
import EosEvmNode.WsProxy.Retractions
import EosEvmNode.WsProxy.Routing
import EosEvmNode.WsProxy.Silence
import EosEvmNode.BlockConversion.Caches
