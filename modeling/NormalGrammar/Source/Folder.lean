/-!
# Files below a folder

A path leads from a folder to a file, one name after the other.  An empty name and `.` stay in the
folder that has been reached, `..` goes back from it, and every other name goes on into it, so that
a path leads nowhere if a name is left and no folder has been reached.  A path that starts at the
root, or goes back from the folder where it starts, leads to none of the files below that folder.
-/

namespace NormalGrammar

/-- The files below a folder: the names that lead to each, and its contents. -/
structure Folder where
  files : List (List String × ByteArray)

namespace Folder

/-- The folder with nothing in it. -/
def empty : Folder := ⟨[]⟩

/-- Whether a name in a path stays in the folder that has been reached. -/
def stays (name : String) : Bool := name == "" || name == "."

/-- The folder with one file below it, to which the path leads. -/
def ofFile (path : String) (contents : ByteArray) : Folder :=
  ⟨[((path.splitOn "/").filter (!stays ·), contents)]⟩

/-- Whether names lead to a folder: the one where they start, or one on the way to a file. -/
def isFolder (folder : Folder) (here : List String) : Bool :=
  here.isEmpty ||
    folder.files.any fun (place, _) => here.isPrefixOf place && decide (here.length < place.length)

/-- Where the rest of a path leads from `here`. -/
def follow (folder : Folder) : (here rest : List String) → Option (List String)
  | here, [] => some here
  | here, name :: rest =>
    if !folder.isFolder here then
      none
    else if stays name then
      follow folder here rest
    else if name == ".." then
      if here.isEmpty then none else follow folder here.dropLast rest
    else
      follow folder (here ++ [name]) rest

/-- The contents of the file to which a path leads. -/
def contents? (folder : Folder) (path : String) : Option ByteArray :=
  match path.splitOn "/" with
  | "" :: _ => none
  | names => (folder.follow [] names).bind fun place => folder.files.lookup place

end Folder

end NormalGrammar
