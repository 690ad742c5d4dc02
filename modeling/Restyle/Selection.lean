import Restyle.Glob
import Restyle.Path

/-!
# Which files are of interest

A selection says which files below a root are taken: by extension, by patterns
for what to leave out, and by what happens at a symbolic link.  It also says
whether the files of a root may be worked on at the same time.
-/

namespace Restyle

/-- Which files are taken, and how. -/
structure Selection where
  /-- Whether symbolic links are followed rather than passed over. -/
  followLinks : Bool := false
  /-- The extensions of the files that are taken, without the dot. -/
  extensions : List String := ["swift"]
  /-- Whether files may be worked on at the same time. -/
  concurrently : Bool := true
  /-- The patterns of what is left out. -/
  excluded : List Glob := []

namespace Selection

/-- Whether a path has one of the extensions. -/
def supports (s : Selection) (p : Path) : Bool := p.extension?.any s.extensions.contains

/-- Whether a pattern matches a whole path or one of the names in it. -/
def touches (g : Glob) (p : Path) : Bool :=
  g.isMatch p.shown || p.components.any fun
    | .name s => g.isMatch (Name.shown s)
    | _ => false

/-- Whether a path is left out. -/
def excludes (s : Selection) (p : Path) : Bool := s.excluded.any (touches · p)

end Selection
end Restyle
