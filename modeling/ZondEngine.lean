import ZondEngine.Cve.Correlate
import ZondEngine.Cve.FeedOrder
import ZondEngine.Detect.Contention
import ZondEngine.Detect.Template
import ZondEngine.Diff.Stricter
import ZondEngine.Fingerprint.Prefilter
import ZondEngine.Format.Csv
import ZondEngine.Format.Time
import ZondEngine.Journal.LeftAlong
import ZondEngine.Journal.Manifest
import ZondEngine.Journal.Mend
import ZondEngine.Journal.Restored
import ZondEngine.Merge.Joined
import ZondEngine.Merge.Whole
import ZondEngine.Model.Parse.Target
import ZondEngine.Model.TlsFold
import ZondEngine.Protocols.Craft
import ZondEngine.Protocols.Dns
import ZondEngine.Protocols.Ip
import ZondEngine.Protocols.Tls
import ZondEngine.Record.Hardware
import ZondEngine.Scanner.Conservation
import ZondEngine.Scanner.Sweep
import ZondEngine.System.Routing
