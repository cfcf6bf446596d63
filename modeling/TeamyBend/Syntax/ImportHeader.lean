/-
# The imports of a module

A module begins with imports, blank lines and comments; the first other line ends the header.  An
`import` of a file has a path, relative to the file that has the line, and an alias.  The namespace
of the imported file is the path from the root of the program, without its components `.` and `..`
where these can be resolved.

Paths have the components that they have on Unix.
-/
import TeamyBend.Syntax.Lexer

namespace TeamyBend.Syntax.ModuleLoader

open Lexer (isWhitespace isAsciiAlphabetic isAsciiDigit)

/-! ## 1. Lines -/

/-- A line without its carriage return; the line is reversed. -/
def dropReturn : List Char → List Char
  | [] => []
  | ch :: line => if ch = '\r' then line else ch :: line

def linesFrom : List Char → List Char → List (List Char)
  | line, [] => if line = [] then [] else [line.reverse]
  | line, ch :: rest =>
    if ch = '\n' then (dropReturn line).reverse :: linesFrom [] rest
    else linesFrom (ch :: line) rest

/-- `str::lines`. -/
def lines (source : List Char) : List (List Char) := linesFrom [] source

/-- `str::trim`. -/
def trim (text : List Char) : List Char :=
  ((text.dropWhile isWhitespace).reverse.dropWhile isWhitespace).reverse

/-- What a line has before its comment. -/
def lineText (line : List Char) : List Char := trim (line.takeWhile (· ≠ '#'))

def splitWhitespaceFrom : List Char → List Char → List (List Char)
  | part, [] => if part = [] then [] else [part.reverse]
  | part, ch :: rest =>
    if isWhitespace ch then
      if part = [] then splitWhitespaceFrom [] rest
      else part.reverse :: splitWhitespaceFrom [] rest
    else splitWhitespaceFrom (ch :: part) rest

/-- `str::split_whitespace`. -/
def splitWhitespace (text : List Char) : List (List Char) := splitWhitespaceFrom [] text

def importWord : List Char := ['i', 'm', 'p', 'o', 'r', 't']

/-- The text is an import, as far as its first word goes. -/
def isImport (text : List Char) : Bool :=
  text = importWord ||
    (importWord.isPrefixOf text && ((text.drop 6).head?.map isWhitespace).getD false)

/-! ## 2. Paths -/

def splitFrom (separator : Char) : List Char → List Char → List (List Char)
  | part, [] => [part.reverse]
  | part, ch :: rest =>
    if ch = separator then part.reverse :: splitFrom separator [] rest
    else splitFrom separator (ch :: part) rest

/-- The components of a path, without the root and without `.`. -/
def components (path : List Char) : List (List Char) :=
  (splitFrom '/' [] path).filter fun part => part ≠ [] ∧ part ≠ ['.']

def parentDir : List Char := ['.', '.']

/-- `Path::file_name`. -/
def fileName (path : List Char) : Option (List Char) :=
  (components path).getLast?.filter (· ≠ parentDir)

/-- `Path::extension`: what follows the last dot, if the dot is not the first character. -/
def extension (path : List Char) : Option (List Char) :=
  (fileName path).bind fun name =>
    let before := name.reverse.dropWhile (· ≠ '.')
    if before.length ≤ 1 then none else some (name.reverse.takeWhile (· ≠ '.')).reverse

def bend : List Char := ['b', 'e', 'n', 'd']

/-- A component of a namespace; `parts` is reversed. -/
def pushComponent (parts : List (List Char)) (part : List Char) : List (List Char) :=
  if part = parentDir then
    match parts with
    | [] => [parentDir]
    | last :: rest => if last ≠ parentDir then rest else parentDir :: parts
  else part :: parts

/-- `parts.join("/")` -/
def join : List (List Char) → List Char
  | [] => []
  | [part] => part
  | part :: parts => part ++ '/' :: join parts

def normalizeNamespace (path : List Char) : List Char :=
  join ((components (path.dropWhile (· = '/'))).foldl pushComponent []).reverse

/-- `namespace.rsplit_once('/').map_or("", |(p, _)| p)` -/
def parentNamespace (ns : List Char) : List Char :=
  (ns.reverse.dropWhile (· ≠ '/')).tail.reverse

/-- `strip_suffix(".bend")` -/
def stripBend (ns : List Char) : Option (List Char) :=
  if ('.' :: bend).isSuffixOf ns then some (ns.take (ns.length - 5)) else none

/-- The namespace of a file that is imported; `none` stands for the panic of `expect`. -/
def importNamespace (ns relative : List Char) : Option (List Char) :=
  stripBend
    (if relative.head? = some '/' then normalizeNamespace relative
    else normalizeNamespace (parentNamespace ns ++ '/' :: relative))

/-! ## 3. Lines of a header -/

/-- What the loader does with a line. -/
inductive HeaderLine where
  /-- The line is parsed; `blank` says whether the header goes on after it. -/
  | parsed (blank : Bool)
  | base
  | file (relative name : List Char)
  | refused (message : String)
  deriving DecidableEq

def validAlias (name : List Char) : Bool :=
  match name with
  | [] => false
  | first :: _ =>
    (isAsciiAlphabetic first || first == '_') &&
      name.all fun ch => isAsciiAlphabetic ch || isAsciiDigit ch || ch == '_'

/-- A line, in a header or after it, with the aliases of the imports before it. -/
def readLine (header : Bool) (aliases : List (List Char)) (line : List Char) : HeaderLine :=
  let text := lineText line
  if header && isImport text then
    match splitWhitespace text with
    | [_, second] =>
      if second = ['B', 'a', 's', 'e'] then .base
      else .refused "expected 'import Base' or 'import path.bend as Name'"
    | [_, relative, keyword, name] =>
      if keyword ≠ ['a', 's'] then
        .refused "expected 'import Base' or 'import path.bend as Name'"
      else if extension relative ≠ some bend ∨ ¬ validAlias name then
        .refused "expected a .bend path and a simple alias"
      else if ['0', 'x'].isPrefixOf relative then
        .refused "hub package imports are not supported; use a local .bend module"
      else if name ∈ aliases then
        .refused ("duplicate import alias: " ++ String.ofList name)
      else .file relative name
    | _ => .refused "expected 'import Base' or 'import path.bend as Name'"
  else .parsed (text = [])

end TeamyBend.Syntax.ModuleLoader
