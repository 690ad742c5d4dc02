import Restyle.Fault
import Restyle.Settings.Discovery
import Restyle.StringMap.Json

/-!
# The cache

A cache remembers, for every file, a text that tells whether the file has been
formatted already.  Files go by their path below the directory of the cache file,
or by their whole path if they are not below it, as far as names are texts: a cache
file has only texts in it, and what it calls other names is not modelled.

A cache file that is missing, or that is not a map of texts, counts as empty.
-/

namespace Restyle

/-- What is remembered, and the directory of the cache file. -/
structure Cache where
  /-- The directory of the cache file. -/
  directory : Path
  /-- The entries. -/
  entries : StringMap

namespace Cache

/-- A cache without entries for a cache file. -/
def empty (p : Path) : Cache := ⟨p.parent?.getD Path.empty, .empty⟩

/-- The cache that a cache file holds. -/
def load (t : FileTree) (p : Path) (r : Refusals := .none) : Cache :=
  match t.readText p r with
  | .error _ => empty p
  | .ok text => { empty p with entries := (StringMap.ofJson? text).getD .empty }

/-- The key of a file. -/
def key (c : Cache) (p : Path) : String := ((p.relativeTo? c.directory).getD p).text

/-- What is remembered under a key. -/
def get? (c : Cache) (key : String) : Option String := c.entries.get? key

/-- Remembers a value under a key. -/
def insert (c : Cache) (key value : String) : Cache :=
  { c with entries := c.entries.insert key value }

/-- The fault of a cache file that cannot be written.  A missing directory is told
apart from everything else. -/
def unwritable (t : FileTree) (p : Path) (e : DiskError) : Fault :=
  match p.parent?.filter (!·.isEmpty) with
  | some directory =>
    if t.isDirectory directory then
      ⟨.writing, s!"Failed to write cache file at {p.text}: {e.message}"⟩
    else ⟨.reading, s!"Cache directory does not exist: {directory.text}"⟩
  | none => ⟨.writing, s!"Failed to write cache file at {p.text}: {e.message}"⟩

/-- Writes a cache to a cache file. -/
def save (c : Cache) (t : FileTree) (p : Path) (r : Refusals := .none) :
    Except Fault FileTree :=
  match t.writeText p c.entries.toJson r with
  | .ok t' => .ok t'
  | .error e => .error (unwritable t p e)

/-- Where the cache file is if nothing else is asked for. -/
def defaultPath? (env : Environment) : Option Path :=
  let base := (env.cacheHome.filter (!·.isEmpty)).map Path.ofText
  let base := base.orElse fun _ => env.homeDirectory?.map (·.child ".cache")
  base.map fun p => (p.child "rulefmt").child "cache.json"

end Cache
end Restyle
