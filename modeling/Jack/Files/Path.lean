/-!
# Paths

A path is kept as its pieces, the texts between its slashes. Pieces may be empty, so no detail of
the text is lost: `a//b/` has the pieces `a`, the empty text, `b` and the empty text.
-/

namespace Jack

/-- The pieces of a path, in order. -/
structure Path where
  pieces : List String
deriving DecidableEq, Repr, Inhabited

namespace Path

/-- Cuts a text at every slash. -/
def split : List Char → List (List Char)
  | [] => [[]]
  | c :: cs =>
    match split cs with
    | piece :: pieces => if c = '/' then [] :: piece :: pieces else (c :: piece) :: pieces
    | [] => []

/-- The path that a text denotes. -/
def ofString (text : String) : Path :=
  ⟨(split text.toList).map String.ofList⟩

/-- The text of a path. -/
def text (p : Path) : String :=
  "/".intercalate p.pieces

/-- Whether a path starts with a slash, so that it leads from the root and not from the working
directory. -/
def isAbsolute (p : Path) : Bool :=
  p.pieces.head? = some "" && 1 < p.pieces.length

/-- The path of a name in the directory `p`. A slash at the end of `p` is not doubled. -/
def child (p : Path) (name : String) : Path :=
  if p.pieces.getLast? = some "" then ⟨p.pieces.dropLast ++ [name]⟩ else ⟨p.pieces ++ [name]⟩

/-! ## File names -/

/-- The pieces without those at the end that name nothing new. -/
def trimmed (p : Path) : List String :=
  (p.pieces.reverse.dropWhile fun piece => piece == "" || piece == ".").reverse

/-- The last piece that names something. A path that ends by going up has no file name. -/
def fileName? (p : Path) : Option String :=
  p.trimmed.getLast?.filter (· ≠ "..")

/-- A file name, cut at its last dot. A dot at the very start separates nothing. -/
def cutName (name : String) : String × Option String :=
  let reversed := name.toList.reverse
  match reversed.dropWhile (· ≠ '.') with
  | _ :: c :: stem =>
    (.ofList (c :: stem).reverse, some (.ofList (reversed.takeWhile (· ≠ '.')).reverse))
  | _ => (name, none)

/-- What follows the last dot of the file name. -/
def extension? (p : Path) : Option String :=
  p.fileName?.bind fun name => (cutName name).2

/-- The path up to the dot before its extension. Only an extension at the very end of the path is
taken off. -/
def dropExtension (p : Path) : Path :=
  match p.fileName?.map cutName with
  | some (stem, some _) =>
    if p.trimmed = p.pieces then ⟨p.pieces.dropLast ++ [stem ++ "."]⟩ else p
  | _ => p

/-- Gives the file name another extension, or a first one. The old extension goes first, up to its
dot. A path that has no file name then stays as it is: of `..a` there remains `..`, which leads to
the directory above. -/
def withExtension (p : Path) (extension : String) : Path :=
  let bare := p.dropExtension
  match bare.fileName? with
  | some name => ⟨bare.trimmed.dropLast ++ [(cutName name).1 ++ "." ++ extension]⟩
  | none => bare

end Path

end Jack
