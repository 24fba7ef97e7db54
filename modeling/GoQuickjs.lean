import GoQuickjs.AllOrNothing
import GoQuickjs.AtomPromises
import GoQuickjs.Cache
import GoQuickjs.Closures
import GoQuickjs.Collector
import GoQuickjs.Compact
import GoQuickjs.Contexts
import GoQuickjs.ExactWrites
import GoQuickjs.FailedLoads
import GoQuickjs.Finalizers
import GoQuickjs.FuncBridge
import GoQuickjs.GcPromises
import GoQuickjs.HandleTable
import GoQuickjs.Images
import GoQuickjs.Indices
import GoQuickjs.Integers
import GoQuickjs.Invocations
import GoQuickjs.Lengths
import GoQuickjs.Library.IndexChains
import GoQuickjs.Locks
import GoQuickjs.MemberNames
import GoQuickjs.Ownership
import GoQuickjs.ProxyPanics
import GoQuickjs.RoundTrip
import GoQuickjs.Totality
import GoQuickjs.Transcoding
import GoQuickjs.Waits
import GoQuickjs.Wrappers
