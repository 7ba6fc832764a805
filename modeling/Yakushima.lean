import Yakushima.Theorems.BorderLookup
import Yakushima.Theorems.Clean
import Yakushima.Theorems.Destroy
import Yakushima.Theorems.Exclusion
import Yakushima.Theorems.Garbage
import Yakushima.Theorems.GarbageCollection
import Yakushima.Theorems.LeftEnd
import Yakushima.Theorems.Lifetime
import Yakushima.Theorems.LinkSlot
import Yakushima.Theorems.Reclaim
import Yakushima.Theorems.SplitChain
import Yakushima.Theorems.SplitEntries
import Yakushima.Theorems.Storage
import Yakushima.Theorems.Value
import Yakushima.Theorems.VersionLock
