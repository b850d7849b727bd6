import TrajectorySafety.Error

/-!
Paths as texts: names between slashes. Whether they lead anywhere is for a disk to say.
-/

namespace TrajectorySafety

/-- The pieces of a path between its slashes, at least one of them. A first piece without characters
in front of a slash stands for the root. -/
structure Path where
  pieces : List String
deriving Repr, DecidableEq

namespace Path

/-- The pieces of a text between slashes. -/
def split : (current : List Char) → List Char → List (List Char)
  | current, [] => [current.reverse]
  | current, '/' :: rest => current.reverse :: split [] rest
  | current, c :: rest => split (c :: current) rest

def ofText (text : String) : Path := ⟨(split [] text.toList).map String.ofList⟩

def text (p : Path) : String := "/".intercalate p.pieces

/-- The most octets that a name may have. -/
def nameLimit : Nat := 255

/-- The most octets that a path may have. -/
def lengthLimit : Nat := 4095

/-- Whether a path starts at the root. -/
def isRooted (p : Path) : Bool :=
  match p.pieces with
  | "" :: _ :: _ => true
  | _ => false

/-- The names of a path, dots among them. -/
def names (p : Path) : List String := p.pieces.filter (· != "")

/-- Whether a path is written as that of a folder. -/
def endsInSlash (p : Path) : Bool := 1 < p.pieces.length && p.pieces.getLast? == some ""

/-- A path must be a text without null characters, neither empty nor too long. -/
def check (p : Path) : Except FileFault Unit :=
  let octets := p.pieces.foldl (fun n piece => n + piece.utf8ByteSize + 1) 0 - 1
  if p.pieces.any (·.toList.contains '\x00') then .error .nullInName
  else if octets = 0 then .error .missing
  else if lengthLimit < octets then .error .tooLong
  else .ok ()

/-- Drops the pieces at the end that name nothing. -/
def trimmed (pieces : List String) : List String :=
  (pieces.reverse.dropWhile fun name => name == "" || name == ".").reverse

theorem length_trimmed_le (pieces : List String) : (trimmed pieces).length ≤ pieces.length := by
  have := (List.dropWhile_sublist (l := pieces.reverse) fun s => s == "" || s == ".").length_le
  simpa [trimmed] using this

/-- The folder around the place of a path, unless it is the root or the folder in which the path
starts: these are always there. -/
def around? (p : Path) : Option Path :=
  match p.pieces with
  | [] => none
  | first :: rest =>
    let inner := trimmed rest
    let outer := trimmed inner.dropLast
    if inner.isEmpty || (first == "" && outer.isEmpty) then none else some ⟨first :: outer⟩

theorem length_lt_of_around? {p q : Path} (h : p.around? = some q) :
    q.pieces.length < p.pieces.length := by
  obtain ⟨_ | ⟨first, rest⟩⟩ := p
  · simp [around?] at h
  · simp only [around?] at h
    split at h
    · contradiction
    · have outer := length_trimmed_le (trimmed rest).dropLast
      have inner := length_trimmed_le rest
      have named : 0 < (trimmed rest).length := by
        cases hr : trimmed rest <;> simp_all
      cases h
      simp only [List.length_cons, List.length_dropLast] at *
      omega

end Path

end TrajectorySafety
