import SepiaLang.Assoc
import SepiaLang.Text.Utf8

/-!
# Files

The files that the command can see: those of one directory, which holds no directories itself.

* `normalPath`: a path without the parts that change nothing.
* `Directory.read`: the text of a file.
-/

namespace SepiaLang

/-- The files of a directory, by name, as bytes. -/
abbrev Directory := List (String × List UInt8)

/-- The parts of a path between slashes, without those that change nothing. -/
def pathParts (path : List Char) : List (List Char) :=
  (path.splitOnP (· == '/')).filter fun part => part != [] && part != ['.']

/-- The slashes that a path from the root starts with. Two are kept, more count as one. -/
def pathRoot (path : List Char) : List Char :=
  match (path.takeWhile (· == '/')).length with
  | 0 => []
  | 2 => ['/', '/']
  | _ => ['/']

/-- A path without the parts that change nothing: double slashes, single dots and a slash at the
end. -/
def normalPath (path : String) : String :=
  let root := pathRoot path.toList
  let parts := pathParts path.toList
  if root.isEmpty && parts.isEmpty then "."
  else String.ofList root ++ String.intercalate "/" (parts.map String.ofList)

/-- The path leads to a directory whatever files there are: it only goes up, or stays. -/
def leadsUp (path : String) : Bool := (pathParts path.toList).all (· == ['.', '.'])

/-- The path is too long for a file: as a whole, or in the first part that does not lead up. -/
def isTooLong (path : String) : Bool :=
  4096 ≤ path.utf8ByteSize ||
    (((pathParts path.toList).find? (· != ['.', '.'])).map fun part =>
      decide (255 < (String.ofList part).utf8ByteSize)).getD false

/-- Why a file has no text. Its bytes may be none, which is `notText`. -/
inductive FileError where
  | missing (path : String)
  | isDirectory (path : String)
  | tooLong (path : String)
  | notText (error : Text.Utf8Error)
  deriving DecidableEq, Repr

/-- The wording of an error. -/
def FileError.message : FileError → String
  | missing path => "Error: file " ++ path ++ " not found"
  | isDirectory path => "[Errno 21] Is a directory: " ++ Text.quoted path
  | tooLong path => "[Errno 36] File name too long: " ++ Text.quoted path
  | notText error => error.message

namespace Directory

/-- The directory with a file written. -/
def write (d : Directory) (name : String) (bytes : List UInt8) : Directory :=
  Assoc.put (·.1 == name) (name, bytes) d

/-- The text that bytes encode, with line feeds for line ends. -/
def textOf (bytes : List UInt8) : Except FileError String :=
  match Text.decodeUtf8 bytes with
  | .ok chars => .ok (String.ofList (Text.unixLines chars))
  | .error e => .error (.notText e)

/-- The text of a file. -/
def read (d : Directory) (path : String) : Except FileError String :=
  let name := normalPath path
  match d.lookup name with
  | some bytes => textOf bytes
  | none =>
    .error
      (if isTooLong name then .tooLong name
       else if leadsUp path then .isDirectory name
       else .missing name)

end Directory

end SepiaLang
