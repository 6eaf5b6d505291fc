/-!
# Paths

A path is the list of its parts from the root folder on.  A path as written may start at the root or
at a folder, and may hold empty and neutral parts and parts that lead back up.
-/

namespace Antecedent

abbrev Path := List String

namespace Path

/-- The parts of a path as written, without empty and neutral ones. -/
def parts (s : String) : List String :=
  (s.splitOn "/").filter fun p => p != "" && p != "."

def isAbsolute (s : String) : Bool :=
  s.startsWith "/"

/-- Follows parts from a folder; a part that leads up from the root stays there. -/
def follow (folder : Path) (parts : List String) : Path :=
  parts.foldl (fun at_ p => if p == ".." then at_.dropLast else at_ ++ [p]) folder

/-- The path that is written below a folder; one from the root does not regard the folder. -/
def resolve (folder : Path) (s : String) : Path :=
  follow (if isAbsolute s then [] else folder) (parts s)

def text (p : Path) : String :=
  "/" ++ "/".intercalate p

/-- The text of paths as written, one below the other; one from the root does not regard those
before it. -/
def joined (names : List String) : String :=
  names.foldl
    (fun before name =>
      let own := "/".intercalate (parts name)
      if isAbsolute name then "/" ++ own
      else if before.isEmpty || own.isEmpty then before ++ own
      else if before.endsWith "/" then before ++ own
      else before ++ "/" ++ own)
    ""

def isBelow (folder p : Path) : Bool :=
  folder.length < p.length && p.take folder.length == folder

end Path

end Antecedent
