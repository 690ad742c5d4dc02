import Restyle.Name

/-!
# Paths

A path is kept exactly as it was spelled: whether it starts with a slash, and the
segments between the slashes after that, empty ones included.  So a path can be
shown to the user as it was given, while comparisons go by components.

A segment that is empty or a single dot does not count as a component, except
that a relative path may start with a dot.  `a//b/./` and `a/b` are spelled
differently and have the same components.

A segment is a name, kept as in `Restyle.Name`.  `Path.text` joins what is kept of
the names.  It is what a path is called in messages and in cache files, which is
right as long as the names are texts; what is said there of other names is not
modelled.  Patterns are matched with `Path.shown`, which is right for all names.
-/

namespace Restyle

/-- A path as it is spelled. -/
structure Path where
  /-- Whether the path starts with a slash. -/
  rooted : Bool
  /-- What stands between the slashes, after the first slash of a rooted path.
  There is always at least one segment; it may be empty. -/
  segments : List String
deriving Repr, DecidableEq

/-- One step of a path. -/
inductive Component where
  /-- The root. -/
  | root
  /-- The dot that a relative path starts with. -/
  | here
  /-- Two dots. -/
  | up
  /-- A name. -/
  | name (s : String)
deriving Repr, DecidableEq

namespace Path

/-! ## Spelling -/

/-- The pieces of a text between its slashes. -/
def splitSlashes : List Char → List (List Char)
  | [] => [[]]
  | c :: rest =>
    if c = '/' then [] :: splitSlashes rest
    else match splitSlashes rest with
      | [] => [[c]]
      | piece :: pieces => (c :: piece) :: pieces

/-- The path that a text spells. -/
def ofText (s : String) : Path :=
  match s.toList with
  | '/' :: rest => ⟨true, (splitSlashes rest).map String.ofList⟩
  | cs => ⟨false, (splitSlashes cs).map String.ofList⟩

/-- The text of a path. -/
def text (p : Path) : String :=
  (if p.rooted then "/" else "") ++ "/".intercalate p.segments

/-- The text that shows a path. -/
def shown (p : Path) : String :=
  (if p.rooted then "/" else "") ++ "/".intercalate (p.segments.map Name.shown)

/-- The path with no components. -/
def empty : Path := ⟨false, [""]⟩

/-- Whether the text of a path is empty. -/
def isEmpty (p : Path) : Bool := !p.rooted && p.segments == [""]

/-- Whether the text of a path ends with a slash. -/
def endsWithSlash (p : Path) : Bool := !p.isEmpty && p.segments.getLast? == some ""

/-- The path without the slashes at its end. -/
def withoutSlash (p : Path) : Path :=
  match (p.segments.reverse.dropWhile (· == "")).reverse with
  | [] => ⟨p.rooted, [""]⟩
  | segments => ⟨p.rooted, segments⟩

/-! ## Components -/

/-- Whether a segment stands for nothing. -/
def isIdle (segment : String) : Bool := segment == "" || segment == "."

/-- The component that a segment stands for. -/
def component? (segment : String) : Option Component :=
  if isIdle segment then none
  else if segment == ".." then some .up
  else some (.name segment)

/-- The components of a path. -/
def components (p : Path) : List Component :=
  if p.rooted then .root :: p.segments.filterMap component?
  else match p.segments with
    | "." :: rest => .here :: rest.filterMap component?
    | segments => segments.filterMap component?

/-- Whether two paths have the same components. -/
def same (p q : Path) : Bool := p.components == q.components

/-- Whether the last components of a path are those of another. -/
def endsWith (p q : Path) : Bool := q.components.isSuffixOf p.components

/-- Whether the first components of a path are those of another. -/
def startsWith (p q : Path) : Bool := q.components.isPrefixOf p.components

/-- The last component of a path, if it is a name. -/
def fileName? (p : Path) : Option String :=
  match p.components.getLast? with
  | some (.name s) => some s
  | _ => none

/-- What stands in a list behind the last place where something stands, unless that
is its first place. -/
def behindLast? [BEq α] (a : α) (l : List α) : Option (List α) :=
  let backwards := l.reverse
  let ending := backwards.takeWhile (· != a)
  match backwards.drop ending.length with
  | _ :: _ :: _ => some ending.reverse
  | _ => none

/-- What stands behind the last dot of a name, unless that dot is its first
character, if that is a text. -/
def extensionOf? (name : String) : Option String :=
  match Name.raw? name with
  | some bytes => (behindLast? 0x2e bytes).bind Name.textOf?
  | none => (behindLast? '.' name.toList).map String.ofList

/-- The extension of a path, without its dot. -/
def extension? (p : Path) : Option String := p.fileName?.bind extensionOf?

/-! ## Making paths out of paths -/

/-- Drops the idle segments at the end of a list. -/
def trimEnd (segments : List String) : List String :=
  (segments.reverse.dropWhile isIdle).reverse

/-- The path with the given segments, which may be none. -/
def ofSegments (rooted : Bool) : List String → Path
  | [] => ⟨rooted, [""]⟩
  | segments => ⟨rooted, segments⟩

/-- The path without idle segments at its end.  The dot that a relative path
starts with stays. -/
def trimmed (p : Path) : Path :=
  if p.rooted then ofSegments true (trimEnd p.segments)
  else match p.segments with
    | "." :: rest => ofSegments false ("." :: trimEnd rest)
    | segments => ofSegments false (trimEnd segments)

/-- The path without its last component.  The root has no parent, and neither
has the empty path. -/
def parent? (p : Path) : Option Path :=
  let p := p.trimmed
  if p.segments == [""] then none
  else some (ofSegments p.rooted p.segments.dropLast).trimmed

/-- A path followed by another, which is taken on its own if it is rooted. -/
def join (p q : Path) : Path :=
  if q.rooted then q
  else if p.segments.getLast? == some "" then ⟨p.rooted, p.segments.dropLast ++ q.segments⟩
  else ⟨p.rooted, p.segments ++ q.segments⟩

/-- A path followed by a name. -/
def child (p : Path) (name : String) : Path := p.join ⟨false, [name]⟩

/-- Drops segments until so many components are gone. -/
def dropComponents : Nat → List String → List String
  | 0, segments => segments
  | _ + 1, [] => []
  | n + 1, segment :: rest =>
    if isIdle segment then dropComponents (n + 1) rest else dropComponents n rest

/-- The rest of a path below another, if the other leads to it.  What is left is
spelled as it was, less idle segments at both ends. -/
def relativeTo? (p base : Path) : Option Path :=
  if !p.startsWith base then none
  else match base.components with
    | [] => some p.trimmed
    | first :: more =>
      let rest := match first with
        | .root => dropComponents more.length p.segments
        | .here => dropComponents more.length (p.segments.drop 1)
        | _ => dropComponents (more.length + 1) p.segments
      some (ofSegments false (trimEnd (rest.dropWhile isIdle)))

/-- A path and so many of the paths above it. -/
def upward : Nat → Path → List Path
  | 0, p => [p]
  | n + 1, p =>
    match p.parent? with
    | some q => p :: upward n q
    | none => [p]

/-- The path and the paths above it, from itself to the outermost.  There are
fewer of them than segments and one. -/
def ancestors (p : Path) : List Path := upward (p.segments.length + 1) p

/-- A path made of names below the root. -/
def ofNames (names : List String) : Path := ofSegments true names

/-- The segments that count, with a leading dot left out. -/
def plainSegments (p : Path) : List String := p.segments.filter (!isIdle ·)

/-- Whether the text of a path starts with exactly two slashes. -/
def startsWithTwoSlashes (p : Path) : Bool :=
  p.rooted && match p.segments with
    | "" :: "" :: _ :: _ => false
    | "" :: _ :: _ => true
    | _ => false

/-- The path seen from a directory, without idle segments.  Two dots stay, and so
do a slash at the end and exactly two slashes at the start.  The empty path leads
nowhere. -/
def absolute? (p directory : Path) : Option Path :=
  let closing := if p.segments.getLast? == some "" then [""] else []
  let names := p.segments.filter (!isIdle ·)
  if p.isEmpty then none
  else if p.startsWithTwoSlashes then
    some (ofSegments true ("" :: (ofSegments false (names ++ closing)).segments))
  else if names.isEmpty then
    if p.rooted then some (ofSegments true [])
    else if closing.isEmpty then some directory
    else some (directory.join empty)
  else if p.rooted then some (ofSegments true (names ++ closing))
  else some (directory.join (ofSegments false (names ++ closing)))

end Path
end Restyle
