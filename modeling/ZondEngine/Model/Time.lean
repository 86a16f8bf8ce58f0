import ZondEngine.Lib.Text

/-!
# Clocks

Moments and spans of time in nanoseconds, as `std::time` has them. `Process` is what a run is handed from outside.
-/

namespace Zond

abbrev SystemTime := Int

abbrev Instant := Nat

abbrev Duration := Nat

namespace SystemTime

def limit : SystemTime := 2 ^ 63 * 10 ^ 9

def checkedAdd (t : SystemTime) (d : Duration) : Option SystemTime := if t + d < limit then some (t + d) else none

def durationSince (t earlier : SystemTime) : Duration := (t - earlier).toNat

end SystemTime

/-- What a run reads from outside the crate: both clocks, and the digest `ring` makes of the suite registry. -/
structure Process where
  now : SystemTime
  instant : Instant
  suiteHash : Text

end Zond
