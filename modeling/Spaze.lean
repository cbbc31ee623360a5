import Spaze.Lib.Runs
import Spaze.Lib.Linked
import Spaze.List
import Spaze.ListRep
import Spaze.ListQueue
import Spaze.ListSplice
import Spaze.Gfx
import Spaze.Allocate
import Spaze.ReuseSearch
import Spaze.PoolRuns
import Spaze.ShmName
import Spaze.Lib.Tiling
import Spaze.PoolSizes
import Spaze.PoolPeaks
import Spaze.PoolViews
import Spaze.PoolWire
import Spaze.PoolWrap
import Spaze.SwapchainReturn
import Spaze.ChainWalk
import Spaze.SwapchainRuns
import Spaze.SwapchainIdle
import Spaze.SwapchainSize
import Spaze.SwapchainRefusal
import Spaze.Array
import Spaze.ArrayStack
import Spaze.Windowing
import Spaze.EventOrder
import Spaze.EventLifetime
import Spaze.EventLoopInit
import Spaze.WindowObjects
import Spaze.ArrayGrowth
import Spaze.EventDelivery
import Spaze.ProgramRuns
import Spaze.BlockLeaks
import Spaze.StorePeaks
import Spaze.Teardown
import Spaze.ArrayCosts
import Spaze.PoolGrowth
import Spaze.ListRuns
import Spaze.ArrayOwners
import Spaze.PoolOwners
import Spaze.PoolLives
