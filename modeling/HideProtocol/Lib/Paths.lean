import Mathlib.Data.List.DropRight
import HideProtocol.Lib.Text

/-!
# Paths

What `std::path` makes of a path, for a separator `/` and no drive letters.
-/

namespace HideProtocol.Lib

abbrev Path := Text

/-- A piece between separators that names nothing. -/
def skipped (piece : Text) : Bool := piece = [] || piece = ['.']

/-- `Path::file_name`: the last component, unless it is `..`. -/
def fileName (path : Path) : Option Text :=
  (((path.splitOn '/').filter fun piece => !skipped piece).getLast?).filter (· ≠ ['.', '.'])

/-- The text before the last dot. -/
def beforeDot (name : Text) : Text := ((name.reverse.dropWhile (· ≠ '.')).drop 1).reverse

/-- `Path::file_stem`; a name that starts with its only dot is all stem. -/
def fileStem (name : Text) : Text := if beforeDot name = [] then name else beforeDot name

/-- `Path::with_extension`; a path without a file name stays as it is. -/
def withExtension (path : Path) (extension : Text) : Path :=
  match fileName path with
  | none => path
  | some name =>
    -- everything after the stem is cut, separators too
    let pieces := (path.splitOn '/').rdropWhile skipped
    ['/'].intercalate (pieces.dropLast ++ [fileStem name]) ++ '.' :: extension

example : withExtension "a//b.tar.gz/.".toList "part".toList = "a//b.tar.part".toList := by decide

/-- `Path::join`. -/
def join (directory name : Path) : Path :=
  if name.head? = some '/' then name
  else if directory = [] ∨ directory.getLast? = some '/' then directory ++ name
  else directory ++ '/' :: name

/-- Different relative names in one directory are different paths. -/
theorem join_injective (directory : Path) {name name' : Path} (hname : name.head? ≠ some '/')
    (hname' : name'.head? ≠ some '/') (h : join directory name = join directory name') :
    name = name' := by
  unfold join at h
  rw [if_neg hname, if_neg hname'] at h
  by_cases hend : directory = [] ∨ directory.getLast? = some '/'
  · rw [if_pos hend, if_pos hend] at h
    exact List.append_cancel_left h
  · rw [if_neg hend, if_neg hend] at h
    exact (List.cons.inj (List.append_cancel_left h)).2

end HideProtocol.Lib
