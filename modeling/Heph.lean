import Heph.Dag.Cycle
import Heph.Memo.Overlap
import Heph.Memo.Sharing
import Heph.Pool.Admission
import Heph.Addr.Shared
import Heph.Matcher.Listing
import Heph.Matcher.TreeOutput
import Heph.Query.RoundTrip
import Heph.Lock.Leak
import Heph.Build.OneBuild
import Heph.Build.Revalidate
import Heph.Failure.Attribution
import Heph.Redact.Chunks
import Heph.Sandbox.Reclaim
import Heph.Key.Pinned
import Heph.Group.Clobber
import Heph.Group.Identity
import Heph.Content.Contained
import Heph.Content.Passthrough
import Heph.Content.Sniff
import Heph.Cache.Stranded
import Heph.Cache.Reported
import Heph.Cache.Memory
import Heph.Cache.Torn
import Heph.Cache.Residency
import Heph.Execute.Deadlock
import Heph.Credential.Keyed
import Heph.Credential.Live
import Heph.Deferred.Exact
import Heph.Scratch.Held
import Heph.Scratch.Isolated
import Heph.Walk.CachedWalker
import Heph.Execute.SandboxDir
import Heph.Remote.Revision
import Heph.Load.Once
import Heph.Sandbox.Transitive
import Heph.Stage.Hold
