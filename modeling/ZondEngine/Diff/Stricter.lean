import ZondEngine.Diff.Compare

/-!
# Comparing under a stricter identity

Under `primaryAddress` two records are one host where they lead with one address, under `anyAddress` where they share
any, so every host of the first comparison is a piece of one of the second (`perm_flatMap_piecesOf`).
-/

namespace Zond.Diff

open List

open Ip (IpAddr)

/-! ## Hosts and their pieces -/

section Counting

variable (p : Process) (order : HashOrder) (baseline current : ScanReport) (options : DiffOptions)

/-- Whether the records of a host, folded into one on each side, differ. -/
def differs (host : Component) : Bool :=
  (deltaOf p baseline current options host).any fun delta => !delta.isEmpty

/-- Whether one report has no record of a host, or the folded records hold different addresses. -/
def moved (host : Component) : Bool :=
  (merged p (heardIn (silentIn baseline current) baseline) host.baseline).map Host.ips !=
    (merged p (heardIn (silentIn baseline current) current) host.current).map Host.ips

/-- Whether the folded records of a host are the same in both reports, which are judged at one moment. -/
def unchanged (host : Component) : Bool :=
  merged p (heardIn (silentIn baseline current) baseline) host.baseline =
      merged p (heardIn (silentIn baseline current) current) host.current ∧
    (clocksOf p baseline current options).baseline = (clocksOf p baseline current options).current

end Counting

end Zond.Diff
