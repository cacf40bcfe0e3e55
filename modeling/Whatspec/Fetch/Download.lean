import Mathlib.Data.String.Basic

/-!
# Names of downloaded files

The archive and the output directories name a bundle after the last segment of its URL.
-/

namespace Whatspec.Fetch

/-- Every character that is not safe in a file name becomes an underscore. -/
def sanitize (s : String) : String :=
  String.ofList (s.toList.map fun c =>
    if (c.isAlphanum && c.toNat < 128) || c = '.' || c = '_' || c = '-' then c else '_')

/-- The last path segment of a URL, its query and fragment cut off. -/
def bundleFileName (url : String) : String :=
  let path := url.toList.takeWhile fun c => c ≠ '?' && c ≠ '#'
  let seg := (path.reverse.takeWhile (· ≠ '/')).reverse
  if seg.isEmpty then sanitize url else String.ofList seg

end Whatspec.Fetch
