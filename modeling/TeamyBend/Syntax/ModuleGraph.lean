/-
# The imports of a program

What a header says does not depend on the files that it imports, so the imports of a file, the text
that is parsed and the aliases can be read off its lines.  A chain of imports leads from the root to
a file; the modules of a book are ordered if each stands after those that it imports.
-/
import TeamyBend.Syntax.ModuleLoader

namespace TeamyBend.Syntax.ModuleLoader

open Lexer (ParseError)

variable {Path File Parser Declaration : Type}

/-! ## 1. Headers -/

/-- What the lines of a file are, up to one that is refused. -/
def readLines : Bool → List (List Char) → List (List Char) → List HeaderLine
  | _, _, [] => []
  | header, aliases, line :: rest =>
    readLine header aliases line ::
      match readLine header aliases line with
      | .refused _ => []
      | .parsed blank => readLines (header && blank) aliases rest
      | .base => readLines header aliases rest
      | .file _ name => readLines header (aliases ++ [name]) rest

/-- An import leaves its line empty. -/
def HeaderLine.kept (line : List Char) : HeaderLine → List Char
  | .parsed _ => line
  | _ => []

/-- The lines that are parsed, one for each line of the file. -/
def keptLines (source : List (List Char)) (reads : List HeaderLine) : List (List Char) :=
  List.zipWith HeaderLine.kept source reads

/-- Lines as a text. -/
def unlines (text : List (List Char)) : List Char := text.flatMap (· ++ ['\n'])

/-- The namespaces that the aliases of a header stand for. -/
def aliasesOf (ns : List Char) (reads : List HeaderLine) : List (List Char × List Char) :=
  reads.filterMap fun
    | .file relative name => (importNamespace ns relative).map (name, ·)
    | _ => none

/-! ## 2. Files -/

/-- Each path leads to a file, each file can be read, and its header is well-formed. -/
structure Files (host : Host Path File Parser Declaration) where
  fileOf : Path → File
  sourceOf : File → List Char
  canonical : ∀ path, host.canonicalize path = .ok (fileOf path)
  readable : ∀ file, host.readToString file = .ok (sourceOf file)
  wellFormed : ∀ file, ∀ read ∈ readLines true [] (lines (sourceOf file)), ∀ message,
    read ≠ .refused message

variable {host : Host Path File Parser Declaration}

/-- What the lines of a file are. -/
def Files.reads (files : Files host) (file : File) : List HeaderLine :=
  readLines true [] (lines (files.sourceOf file))

/-- What is parsed of a file. -/
def Files.input (files : Files host) (path : Path) (ns : List Char) : ParseInput File :=
  ⟨unlines (keptLines (lines (files.sourceOf (files.fileOf path)))
      (files.reads (files.fileOf path))),
    host.display path, ns, aliasesOf ns (files.reads (files.fileOf path)),
    .local (files.fileOf path)⟩

section Graph

variable (files : Files host) (root : Path × List Char)

/-- The imports that lead from the root to a file, the last one first: each with the path that it
gives, and with the namespace. -/
inductive Chain : List (Path × List Char) → Prop
  | root : Chain [root]
  | import {path : Path} {ns relative name sub : List Char} {above : List (Path × List Char)} :
    Chain ((path, ns) :: above) → .file relative name ∈ files.reads (files.fileOf path) →
    importNamespace ns relative = some sub →
    Chain ((host.sibling path relative, sub) :: (path, ns) :: above)

/-- A text that is parsed into a book: one of the Base, or a file with the chain of imports by
which it was reached. -/
inductive Module (Path : Type) where
  | bundled (effects : Bool)
  | file (path : Path) (ns : List Char) (above : List (Path × List Char))

def Module.input : Module Path → ParseInput File
  | .bundled false => baseInput host
  | .bundled true => effectsInput host
  | .file path ns _ => files.input path ns

/-- The file of a path is among the modules, in a namespace. -/
def Found (modules : List (Module Path)) (path : Path) (ns : List Char) : Prop :=
  ∃ path' above, .file path' ns above ∈ modules ∧ files.fileOf path' = files.fileOf path

/-- The Base is among the modules. -/
def BaseFound (executable : Bool) (modules : List (Module Path)) : Prop :=
  .bundled false ∈ modules ∧ (executable = true → .bundled true ∈ modules)

/-- A module may follow others: what it imports is among them, and it is not. -/
def Follows (executable : Bool) (modules : List (Module Path)) : Module Path → Prop
  | .bundled effects => .bundled effects ∉ modules
  | .file path ns above =>
    Chain files root ((path, ns) :: above) ∧ above.length < 64 ∧
      (∀ path' ns' above', .file path' ns' above' ∈ modules →
        files.fileOf path' ≠ files.fileOf path) ∧
      (.base ∈ files.reads (files.fileOf path) → BaseFound executable modules) ∧
      ∀ relative name, .file relative name ∈ files.reads (files.fileOf path) →
        above.length + 1 < 64 ∧ ∃ sub, importNamespace ns relative = some sub ∧
          Found files modules (host.sibling path relative) sub

/-- Each module follows those before it. -/
inductive Ordered (executable : Bool) : List (Module Path) → Prop
  | nil : Ordered executable []
  | concat {modules : List (Module Path)} {m : Module Path} : Ordered executable modules →
    Follows files root executable modules m → Ordered executable (modules ++ [m])

/-- A chain of imports comes back to a file, two lead to one file in different namespaces, or one
has more than 64 files. -/
def Refused : Prop :=
  (∃ path ns above, Chain files root ((path, ns) :: above) ∧
      files.fileOf path ∈ above.map (files.fileOf ·.1)) ∨
    (∃ path ns above path' ns' above', Chain files root ((path, ns) :: above) ∧
      Chain files root ((path', ns') :: above') ∧ files.fileOf path = files.fileOf path' ∧
      ns ≠ ns') ∨
    ∃ chain, Chain files root chain ∧ 64 < chain.length

/-- The parser reads the texts of modules, one after the other, with what they add. -/
inductive Parses (start : Parser) : List (Module Path × List Declaration) → Parser → Prop
  | nil : Parses start [] start
  | concat {parts : List (Module Path × List Declaration)} {m : Module Path}
    {declarations : List Declaration} {parser parser' : Parser} : Parses start parts parser →
    host.parse (m.input files) parser = .ok (declarations, parser') →
    Parses start (parts ++ [(m, declarations)]) parser'

/-- The parser refuses a text where the loader comes to it. -/
def Unparsed (executable : Bool) (start : Parser) (failure : Failure) : Prop :=
  ∃ (parts : List (Module Path × List Declaration)) (parser : Parser) (m : Module Path)
    (error : ParseError), Ordered files root executable (parts.map Prod.fst) ∧
    Follows files root executable (parts.map Prod.fst) m ∧ Parses files start parts parser ∧
    host.parse (m.input files) parser = .error error ∧ failure = .parse error

/-- Why a load fails. -/
def Fails (executable : Bool) (start : Parser) (failure : Failure) : Prop :=
  failure ≠ .exhausted ∧ (Refused files root ∨ Unparsed files root executable start failure)

end Graph

/-! ## 3. Namespaces of imports -/

theorem splitFrom_append (separator : Char) (part before after : List Char) :
    splitFrom separator part (before ++ separator :: after) =
      splitFrom separator part before ++ splitFrom separator [] after := by
  induction before generalizing part with
  | nil => simp [splitFrom]
  | cons ch before ih =>
    by_cases hch : ch = separator
    · simp [splitFrom, hch, ih]
    · simp [splitFrom, hch, ih]

theorem components_append (before after : List Char) :
    components (before ++ '/' :: after) = components before ++ components after := by
  simp [components, splitFrom_append]

theorem components_dropWhile (path : List Char) :
    components (path.dropWhile (· = '/')) = components path := by
  induction path with
  | nil => rfl
  | cons ch path ih =>
    by_cases hch : ch = '/'
    · subst hch
      have := components_append [] path
      simp only [List.nil_append] at this
      rw [List.dropWhile_cons_of_pos (by simp), ih, this]
      rfl
    · rw [List.dropWhile_cons_of_neg (by simpa using hch)]

/-- The last part of a path that is joined. -/
theorem suffix_join (parts : List (List Char)) (part : List Char) :
    part <:+ join (parts ++ [part]) := by
  induction parts with
  | nil => exact List.suffix_refl _
  | cons first parts ih =>
    have hne : parts ++ [part] ≠ [] := by simp
    have hjoin : join (first :: (parts ++ [part])) = first ++ '/' :: join (parts ++ [part]) := by
      cases hparts : parts ++ [part] with
      | nil => exact absurd hparts hne
      | cons second rest => rfl
    rw [List.cons_append, hjoin]
    exact ih.trans ((List.suffix_cons _ _).trans (List.suffix_append _ _))

/-- A namespace ends with the name of the file. -/
theorem suffix_normalizeNamespace {path name : List Char} {init : List (List Char)}
    (hlast : components path = init ++ [name]) (hname : name ≠ parentDir) :
    name <:+ normalizeNamespace path := by
  unfold normalizeNamespace
  rw [components_dropWhile, hlast, List.foldl_append, List.foldl_cons, List.foldl_nil]
  unfold pushComponent
  rw [if_neg hname, List.reverse_cons]
  exact suffix_join _ _

theorem fileName_of_extension {relative ending : List Char}
    (h : extension relative = some ending) :
    ∃ init name, components relative = init ++ [name] ∧ name ≠ parentDir ∧
      '.' :: ending <:+ name := by
  unfold extension fileName at h
  obtain ⟨name, hfile, hending⟩ := Option.bind_eq_some_iff.1 h
  obtain ⟨hlast, hname⟩ := Option.filter_eq_some_iff.1 hfile
  obtain ⟨init, hinit⟩ := List.getLast?_eq_some_iff.1 hlast
  refine ⟨init, name, hinit, by simpa using hname, ?_⟩
  dsimp only at hending
  split at hending
  · cases hending
  · rename_i hlength
    obtain rfl := Option.some.inj hending
    cases hbefore : name.reverse.dropWhile (· ≠ '.') with
    | nil =>
      rw [hbefore] at hlength
      simp at hlength
    | cons dot before =>
      have hdot : dot = '.' := by
        have hhead := List.head?_dropWhile_not (· ≠ '.') name.reverse
        rw [hbefore] at hhead
        simpa using hhead
      subst hdot
      have hsplit := List.takeWhile_append_dropWhile (p := (· ≠ '.')) (l := name.reverse)
      rw [hbefore] at hsplit
      refine ⟨before.reverse, ?_⟩
      have hname := congrArg List.reverse hsplit
      rw [List.reverse_append, List.reverse_reverse, List.reverse_cons, List.append_assoc] at hname
      exact hname

/-- The namespace of an import is one, whatever the namespace that it is read in. -/
theorem importNamespace_of_extension {relative : List Char} (ns : List Char)
    (h : extension relative = some bend) : ∃ sub, importNamespace ns relative = some sub := by
  obtain ⟨init, name, hlast, hname, hsuffix⟩ := fileName_of_extension h
  have hends : ∀ path, (∃ before, components path = before ++ [name]) →
      ∃ sub, stripBend (normalizeNamespace path) = some sub := by
    rintro path ⟨before, hpath⟩
    have := List.isSuffixOf_iff_suffix.2 (hsuffix.trans (suffix_normalizeNamespace hpath hname))
    exact ⟨_, if_pos this⟩
  unfold importNamespace
  split
  · exact hends relative ⟨init, hlast⟩
  · refine hends _ ⟨components (parentNamespace ns) ++ init, ?_⟩
    rw [components_append, hlast, List.append_assoc]

/-- An import of a file has the ending of one. -/
theorem extension_of_readLine {header : Bool} {aliases : List (List Char)}
    {line relative name : List Char} (h : readLine header aliases line = .file relative name) :
    extension relative = some bend := by
  unfold readLine at h
  dsimp only at h
  split at h
  · split at h
    · split at h <;> cases h
    · split at h
      · cases h
      · split at h
        · cases h
        · rename_i hvalid
          split at h
          · cases h
          · split at h
            · cases h
            · cases h
              simp only [not_or, not_not] at hvalid
              exact hvalid.1
    · cases h
  · cases h

end TeamyBend.Syntax.ModuleLoader
