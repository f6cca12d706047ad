import Jma.Advice.Detach
import Jma.Advice.ElapsedTime
import Jma.Advice.Headers
import Jma.Advice.NextSession
import Jma.Advice.Threads
import Jma.Attach.CleanUp
import Jma.Attach.Overlap
import Jma.Attach.RoundTrip
import Jma.Attach.Silenced
import Jma.Attach.Weaving
import Jma.Core.ArrivalOrder
import Jma.Core.Backup
import Jma.Core.CallStack
import Jma.Core.Labels
import Jma.Hierarchy.ArrayOwners
import Jma.Hierarchy.ClassClosure
import Jma.Hierarchy.CodeOrder
import Jma.Hierarchy.Completeness
import Jma.Hierarchy.Locality
import Jma.Hierarchy.Nesting
import Jma.Hierarchy.Soundness
import Jma.Http.HeartBeat
import Jma.Http.HttpClientThread
import Jma.Http.Redirected
import Jma.Http.Watchdog
import Jma.Report.EntryShare
import Jma.Report.ProgramOrder
import Jma.Report.Requests
