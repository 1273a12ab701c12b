import ExchangeSim.Auctions
import ExchangeSim.Averages
import ExchangeSim.Cascades
import ExchangeSim.FastMessages
import ExchangeSim.FillReports
import ExchangeSim.Guarantees
import ExchangeSim.Immediate
import ExchangeSim.ImpliedMarkets
import ExchangeSim.LevelHeap
import ExchangeSim.LimitPrice
import ExchangeSim.Listeners
import ExchangeSim.LotAlignment
import ExchangeSim.LotGrid
import ExchangeSim.OpeningReference
import ExchangeSim.OrderFeed
import ExchangeSim.Overflow
import ExchangeSim.QueueOrder
import ExchangeSim.Quotes
import ExchangeSim.Restore
import ExchangeSim.SimClient
import ExchangeSim.SpscRing
import ExchangeSim.Standoff
import ExchangeSim.StopModify
import ExchangeSim.Throttle
import ExchangeSim.Undo
