/-
# The loader of modules

`Loader::file` reads the header of a file and loads each import where it stands; then the rest of
the file is parsed into the book.  A file that is in the book is not read again, and a file that is
still being loaded must not be reached.

The system and the parser are given: what a path leads to, what a file holds, and what declarations
a text adds to the book.  The metadata for diagnostics is left out, and so are the tables that are
derived from the declarations of the Base.  A call is given a bound on its depth; `exhausted` is no
outcome of the source.
-/
import TeamyBend.Syntax.ImportHeader

namespace TeamyBend.Syntax.ModuleLoader

open Lexer (ParseError)

/-! ## 1. What is given -/

/-- Where a text comes from. -/
inductive Origin (File : Type) where
  | local (file : File)
  | bundled (effects : Bool)
  deriving DecidableEq

/-- `struct ParseInput`. -/
structure ParseInput (File : Type) where
  source : List Char
  label : String
  «namespace» : List Char
  aliases : List (List Char × List Char)
  origin : Origin File

/-- The file system and the parser. -/
structure Host (Path File Parser Declaration : Type) where
  display : Path → String
  /-- `{:?}` of a text. -/
  debug : List Char → String
  /-- `path.parent().unwrap_or(".").join(relative)` -/
  sibling : Path → List Char → Path
  canonicalize : Path → Except String File
  readToString : File → Except String (List Char)
  baseSource : List Char
  effectsSource : List Char
  /-- `parse_into`: the declarations that are added, with the counters and tables of the parser. -/
  parse : ParseInput File → Parser → Except ParseError (List Declaration × Parser)

structure Loader (File Parser Declaration : Type) where
  book : List Declaration
  parser : Parser
  seen : List (File × List Char)
  active : List File
  base : Bool
  executable : Bool

/-- Why a call does not return: `exhausted` is the bound of the depth. -/
inductive Failure where
  | exhausted
  | parse (error : ParseError)

variable {Path File Parser Declaration : Type}

/-! ## 2. The traversal -/

section Traversal

variable (host : Host Path File Parser Declaration)

def fileError (path : Path) (message : String) : Failure :=
  .parse ⟨host.display path, 1, 1, .Text message⟩

/-- `line.find("import")` -/
def findImport : List Char → Option Nat
  | [] => none
  | ch :: rest =>
    if importWord.isPrefixOf (ch :: rest) then some 0
    else (findImport rest).map (· + ch.utf8Size)

def importFailure (path : Path) (lineNumber : Nat) (line : List Char) (message : String) :
    Failure :=
  .parse ⟨host.display path, lineNumber + 1, (findImport line).getD 0 + 1, .Text message⟩

/-- A text is parsed into the book. -/
def parseInto (input : ParseInput File) (l : Loader File Parser Declaration) :
    Except Failure (Loader File Parser Declaration) :=
  match host.parse input l.parser with
  | .error error => .error (.parse error)
  | .ok (declarations, parser) => .ok { l with book := l.book ++ declarations, parser }

def baseInput : ParseInput File := ⟨host.baseSource, "<Base>", [], [], .bundled false⟩

def effectsInput : ParseInput File :=
  ⟨host.effectsSource, "<Base effects>", [], [], .bundled true⟩

def embeddedBase (l : Loader File Parser Declaration) :
    Except Failure (Loader File Parser Declaration) :=
  match parseInto host (baseInput host) l with
  | .error failure => .error failure
  | .ok l => if l.executable then parseInto host (effectsInput host) l else .ok l

/-- What was read of a file. -/
structure Scan where
  header : Bool
  aliases : List (List Char × List Char)
  cleaned : List Char

/-- A line that is not parsed. -/
def Scan.skip (scan : Scan) : Scan := { scan with cleaned := scan.cleaned ++ ['\n'] }

/-- The lines of a file; `visit` loads an import. -/
def scanLines (visit : Path → List Char → Loader File Parser Declaration →
      Except Failure (Loader File Parser Declaration))
    (path : Path) (ns : List Char) :
    List (List Char) → Nat → Scan → Loader File Parser Declaration →
      Except Failure (Scan × Loader File Parser Declaration)
  | [], _, scan, l => .ok (scan, l)
  | line :: rest, lineNumber, scan, l =>
    match readLine scan.header (scan.aliases.map Prod.fst) line with
    | .refused message => .error (importFailure host path lineNumber line message)
    | .parsed blank =>
      let scan := { scan with
        header := scan.header && blank, cleaned := scan.cleaned ++ line ++ ['\n'] }
      scanLines visit path ns rest (lineNumber + 1) scan l
    | .base =>
      match if l.base then .ok l else embeddedBase host { l with base := true } with
      | .error failure => .error failure
      | .ok l => scanLines visit path ns rest (lineNumber + 1) scan.skip l
    | .file relative name =>
      match importNamespace ns relative with
      | none => .error (importFailure host path lineNumber line "extension checked")
      | some sub =>
        match visit (host.sibling path relative) sub l with
        | .error failure => .error failure
        | .ok l =>
          let scan := { scan with aliases := scan.aliases ++ [(name, sub)] }
          scanLines visit path ns rest (lineNumber + 1) scan.skip l

/-- `Loader::file`. -/
def file [DecidableEq File] : Nat → Path → List Char → Loader File Parser Declaration →
    Except Failure (Loader File Parser Declaration)
  | 0, _, _, _ => .error .exhausted
  | fuel + 1, path, ns, l =>
    match host.canonicalize path with
    | .error cause => .error (fileError host path cause)
    | .ok real =>
      if 64 ≤ l.active.length then
        .error (fileError host path "import nesting exceeds the loader resource limit of 64")
      else if real ∈ l.active then .error (fileError host path "import cycle")
      else
        match l.seen.lookup real with
        | some prior =>
          if prior ≠ ns then
            .error (fileError host path
              ("one namespace per file: " ++ host.debug prior ++ " and " ++ host.debug ns))
          else .ok l
        | none =>
          match host.readToString real with
          | .error cause => .error (fileError host path cause)
          | .ok source =>
            match scanLines host (file fuel) path ns (lines source) 0 ⟨true, [], []⟩
                { l with active := real :: l.active } with
            | .error failure => .error failure
            | .ok (scan, l) =>
              let input := ⟨scan.cleaned, host.display path, ns, scan.aliases, .local real⟩
              match parseInto host input l with
              | .error failure => .error failure
              | .ok l =>
                .ok { l with active := l.active.erase real, seen := (real, ns) :: l.seen }

end Traversal

/-- `Loader::default`, for a parser that has read nothing. -/
def emptyLoader (parser : Parser) (executable : Bool) : Loader File Parser Declaration :=
  ⟨[], parser, [], [], false, executable⟩

end TeamyBend.Syntax.ModuleLoader
