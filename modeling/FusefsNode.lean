import FusefsNode.Path
import FusefsNode.Avl
import FusefsNode.Freelist
import FusefsNode.Cache.State
import FusefsNode.Cache.Step
import FusefsNode.Cache.Invariant
import FusefsNode.Cache.Preserve
import FusefsNode.Cache.Reachable
import FusefsNode.Cache.Accounting
import FusefsNode.Cache.Races
import FusefsNode.Cache.Findcreate
import FusefsNode.Cache.Retry
import FusefsNode.Cache.Teardown
import FusefsNode.Cache.Prune
import FusefsNode.LockOrder
import FusefsNode.Cache.Unmount
import FusefsNode.Cache.Release
import FusefsNode.Cache.Lookup
import FusefsNode.Cache.Agree
import FusefsNode.Cache.Pin
import FusefsNode.Cache.Progress
import FusefsNode.Cache.Finish
import FusefsNode.Cache.Identity
import FusefsNode.Cache.Names
import FusefsNode.Cache.Population
import FusefsNode.Subrinit
